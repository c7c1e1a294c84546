import RegisterBytecode.Proofs.Landing
import RegisterBytecode.Proofs.Session.BreadthFirst
import RegisterBytecode.Proofs.WellFormed

/-!
# The pool is the breadth-first closure of the entry

Which constants a program needs in the pool, and in which order, can be said without a compiler:
start with the entry, go through the list, and append what each body refers to
(`Program.breadthFirst`). An instruction refers to the body that it makes a closure of, and to the
constant that it loads unless it carries it itself (`Instr.poolRef?`).

The main theorem is that a finished image has just this list as its pool, and that every reference
to the pool in its code is to the place of its constant in this list. For the first half it is
enough that a session asks for constants in **some** breadth-first order
(`Session.Finished.breadthFirst`), since there is only one. The second half reads the references off
what a walk over a body finds (`Instr.poolRef?_of_getElem?_readings`).
-/

namespace RegisterBytecode

/-! ### References -/

/-- Whether the instruction that loads a constant carries it: an integer of thirty-two bits or a
short text, if the configuration asks for it. -/
def Constant.isCarried (config : Config) : Constant → Bool
  | .int v => config.inlineLiterals && decide (-2147483648 ≤ v.toInt ∧ v.toInt < 2147483648)
  | .str t =>
    config.inlineLiterals && decide (t.utf8ByteSize ≤ min config.maxInlineText inlineTextLimit)
  | _ => false

/-- The constant that an instruction refers to through the pool. -/
def Instr.poolRef? (p : Program) (config : Config) : Instr → Option ConstIndex
  | .load _ index => if (p.get? index).any (Constant.isCarried config) then none else some index
  | .closure _ index _ => some index
  | _ => none

/-- The constants that a constant refers to, in the order of its instructions. Only a body refers
to any. -/
def Constant.refs (p : Program) (config : Config) : Constant → List ConstIndex
  | .code body => body.code.toList.filterMap (Instr.poolRef? p config)
  | _ => []

namespace Program

variable (p : Program) (config : Config)

/-- The constants that the constant at an index refers to. -/
def refs (c : ConstIndex) : List ConstIndex := (p.get? c).toList.flatMap (Constant.refs p config)

/-- Everything that any constant refers to. -/
def allRefs : List ConstIndex := p.constants.toList.flatMap (Constant.refs p config)

theorem refs_subset_allRefs (c : ConstIndex) : p.refs config c ⊆ p.allRefs config := by
  intro d hd
  obtain ⟨k, hk, hd⟩ := List.mem_flatMap.1 hd
  have hmem : k ∈ p.constants := Array.mem_of_getElem? (Option.mem_toList.1 hk)
  exact List.mem_flatMap.2 ⟨k, Array.mem_toList_iff.2 hmem, hd⟩

/-- What is appended is taken away from what could still be appended. -/
theorem length_unlisted_foldl_reserve {cs mentioned : List ConstIndex} (h : cs ⊆ mentioned)
    (order : List ConstIndex) :
    (mentioned.filter (· ∉ cs.foldl reserve order)).length + (cs.foldl reserve order).length ≤
      (mentioned.filter (· ∉ order)).length + order.length := by
  induction cs generalizing order with
  | nil => exact Nat.le_refl _
  | cons c cs ih =>
    refine Nat.le_trans (ih (fun d hd ↦ h (List.mem_cons_of_mem c hd)) _) ?_
    by_cases hc : c ∈ order
    · rw [reserve, if_pos hc]
    · have hless : (mentioned.filter (· ∉ order ++ [c])).length <
          (mentioned.filter (· ∉ order)).length := by
        have hsplit : mentioned.filter (· ∉ order ++ [c]) =
            (mentioned.filter (· ∉ order)).filter (· ≠ c) := by
          rw [List.filter_filter]
          exact List.filter_congr fun d _ ↦ by simp [not_or, and_comm]
        rw [hsplit, List.length_filter_lt_length_iff_exists]
        exact ⟨c, List.mem_filter.2 ⟨h List.mem_cons_self, by simpa using hc⟩, by simp⟩
      rw [reserve, if_neg hc, List.length_append, List.length_singleton]
      omega

/-- Go through a list from position `k` on, and append what each element refers to unless it is
listed already. -/
def visit (k : Nat) (order : List ConstIndex) : List ConstIndex :=
  match _h : order[k]? with
  | some c => visit (k + 1) ((p.refs config c).foldl reserve order)
  | none => order
termination_by ((p.allRefs config).filter (· ∉ order)).length + (order.length - k)
decreasing_by
  have hle := length_unlisted_foldl_reserve (p.refs_subset_allRefs config c) order
  have hlt := (List.getElem?_eq_some_iff.1 _h).1
  have hgrow := (prefix_foldl_reserve (p.refs config c) order).length_le
  omega

/-- The constants that a program needs in the pool: the entry, and whatever is referred to from
there, in breadth-first order. -/
def breadthFirst : List ConstIndex := p.visit config 0 [p.entry]

/-- Going on from a list that accounts for what its first `k` elements refer to. -/
theorem breadthFirst_visit {k : Nat} {order : List ConstIndex}
    (hk : order = explored (p.refs config) p.entry order k)
    (hr : ∀ c ∈ order, Relation.ReflTransGen (fun c d ↦ d ∈ p.refs config c) p.entry c) :
    BreadthFirst (p.refs config) p.entry (p.visit config k order) := by
  fun_induction visit p config k order with
  | case1 k order c hc ih =>
    obtain ⟨hlt, rfl⟩ := List.getElem?_eq_some_iff.1 hc
    have htake : ((p.refs config order[k]).foldl reserve order).take (k + 1) =
        order.take k ++ [order[k]] := by
      obtain ⟨fresh, hfresh⟩ := prefix_foldl_reserve (p.refs config order[k]) order
      rw [← hfresh, List.take_append_of_le_length hlt, List.take_append_getElem]
    refine ih ?_ fun d hd ↦ ?_
    · rw [explored, htake, List.flatMap_append, List.flatMap_singleton, List.foldl_append]
      exact congrArg ((p.refs config order[k]).foldl reserve) hk
    · rcases mem_foldl_reserve.1 hd with hd | hd
      · exact hr d hd
      · exact (hr _ (List.getElem_mem hlt)).tail hd
  | case2 k order hnone =>
    refine ⟨?_, hr⟩
    rwa [explored, List.take_of_length_le (List.getElem?_eq_none_iff.1 hnone)] at hk

/-- **The list that is computed is in breadth-first order.** -/
theorem breadthFirst_breadthFirst :
    BreadthFirst (p.refs config) p.entry (p.breadthFirst config) := by
  refine p.breadthFirst_visit config rfl fun c hc ↦ ?_
  rw [List.mem_singleton.1 hc]

end Program

/-! ### The order of a session -/

/-- A session's rule for carrying constants is the one stated here. -/
theorem Config.isSome_inline?_clamped (config : Config) (c : Constant) :
    (config.clamped.inline? c).isSome = c.isCarried config := by
  cases c with
  | int v =>
    rw [inline?, narrow?, Constant.isCarried, clamped_inlineLiterals]
    cases config.inlineLiterals with
    | false => rfl
    | true => by_cases hrange : -2147483648 ≤ v.toInt ∧ v.toInt < 2147483648 <;> simp [hrange]
  | str t =>
    rw [inline?, Constant.isCarried, clamped_inlineLiterals, clamped_maxInlineText]
    split
    · next hcarried => rw [hcarried, Option.isSome_some]
    · next hcarried => rw [Bool.eq_false_iff.2 hcarried, Option.isSome_none]
  | _ => rfl

namespace Job

variable {program : Program} {config : Config} {i : Instr} {d : Option ConstIndex}

/-- What an instruction demands is what it refers to. -/
theorem eq_poolRef?_of_demand (h : (Job.new program config).demand i = .ok d) :
    d = i.poolRef? program config := by
  cases i with
  | load dst index =>
    obtain ⟨c, hc, rfl⟩ := demand_load_eq_ok h
    show (if (config.clamped.inline? c).isSome then none else some index) = _
    rw [Instr.poolRef?, show program.get? index = some c from hc, Option.any_some,
      Config.isSome_inline?_clamped]
  | closure dst index captures => exact (demand_closure_eq_ok h).2
  | etcLookup dst etc index => exact (checkTail_eq_ok h).2
  | fillTable table etc start => exact (checkTail_eq_ok h).2
  | _ => exact (Except.ok.inj h).symm

/-- An instruction whose demand can be met asks for what it refers to. -/
theorem wants_eq_poolRef? (h : (Job.new program config).demand i = .ok d) :
    (Job.new program config).wants i = (i.poolRef? program config).toList := by
  rw [wants_of_demand h, eq_poolRef?_of_demand h]

/-- Nothing is asked for that is not referred to. -/
theorem wantsOf_subset_refs (c : ConstIndex) :
    (Job.new program config).wantsOf c ⊆ program.refs config c := by
  have hget : (Job.new program config).program.get? c = program.get? c := rfl
  intro d hd
  rw [wantsOf, hget] at hd
  split at hd
  · next body hbody =>
    obtain ⟨i, hi, hd⟩ := List.mem_flatMap.1 hd
    rw [wants] at hd
    split at hd
    · next r hr =>
      rw [eq_poolRef?_of_demand hr, Option.mem_toList] at hd
      rw [Program.refs, hbody, Option.toList_some, List.flatMap_singleton]
      exact List.mem_filterMap.2 ⟨i, hi, hd⟩
    · cases hd
  · cases hd

/-- A constant asks for what it refers to, if all that it demands is there. -/
theorem wantsOf_eq_refs {c : ConstIndex}
    (h : ∀ body, program.get? c = some (.code body) → ∀ i ∈ body.code.toList,
      ∃ d, (Job.new program config).demand i = .ok d) :
    (Job.new program config).wantsOf c = program.refs config c := by
  have hget : (Job.new program config).program.get? c = program.get? c := rfl
  rw [wantsOf, hget, Program.refs]
  cases hc : program.get? c with
  | none => rfl
  | some constant =>
    rw [Option.toList_some, List.flatMap_singleton]
    cases constant with
    | code body =>
      show body.code.toList.flatMap _ = body.code.toList.filterMap _
      rw [List.filterMap_eq_flatMap_toList]
      refine List.flatMap_congr fun i hi ↦ ?_
      obtain ⟨d, hd⟩ := h body hc i hi
      exact wants_eq_poolRef? hd
    | _ => rfl

end Job

namespace Session.Finished

variable {program : Program} {config : Config} {order : List ConstIndex} {s : Session} {m : Image}

/-- Every constant of a finished image asks for what it refers to. -/
theorem wantsOf_eq_refs (h : Finished (Job.new program config) order s m) {c : ConstIndex}
    (hc : c ∈ order) : (Job.new program config).wantsOf c = program.refs config c := by
  refine Job.wantsOf_eq_refs fun body hbody i hi ↦ ?_
  obtain ⟨n, g, -, rfl, hsound⟩ := h.exists_sound hc hbody
  obtain ⟨d, hd, -⟩ := hsound.supplied i hi
  exact ⟨d, hd⟩

/-- **A session asks for constants in breadth-first order.** -/
theorem breadthFirst (h : Finished (Job.new program config) order s m) :
    BreadthFirst (program.refs config) program.entry order := by
  have hasked : order = (order.flatMap (program.refs config)).foldl reserve [program.entry] := by
    rw [← List.flatMap_congr fun c hc ↦ h.wantsOf_eq_refs hc]
    exact h.built.asked
  refine ⟨hasked, fun c hc ↦ ?_⟩
  -- on the way to a constant nothing leaves the list, so asking and referring are the same
  have hway : c ∈ order ∧
      Relation.ReflTransGen (fun c d ↦ d ∈ program.refs config c) program.entry c := by
    have hreached := h.built.reached c hc
    clear hc
    induction hreached with
    | refl => exact ⟨List.mem_of_getElem? h.holds.first, .refl⟩
    | @tail c d _ hask ih =>
      obtain ⟨hmem, hreach⟩ := ih
      have hd : d ∈ program.refs config c := h.wantsOf_eq_refs hmem ▸ hask
      refine ⟨?_, hreach.tail hd⟩
      rw [hasked]
      exact mem_foldl_reserve.2 (Or.inr (List.mem_flatMap.2 ⟨c, hmem, hd⟩))
  exact hway.2

/-- **The order of a session** is the one that the program determines. -/
theorem order_eq (h : Finished (Job.new program config) order s m) :
    order = program.breadthFirst config :=
  h.breadthFirst.unique (program.breadthFirst_breadthFirst config)

end Session.Finished

/-! ### References in the code -/

/-- At a position of a body stands an instruction that refers to a constant through the pool. -/
def Body.RefersAt (p : Program) (config : Config) (b : Body) (j : Nat) (index : ConstIndex) :
    Prop :=
  ∃ i, b.code[j]? = some i ∧ i.poolRef? p config = some index

section Readings

variable {p : Program} {config : Config} {slot : ConstIndex → Nat} {home : Reg → Operand}

theorem Constant.loadReading_of_isCarried_eq_false {c : Constant}
    (h : c.isCarried config = false) (dst : Operand) (k : Nat) :
    c.loadReading config dst k = ⟨.loadConst, [dst], .pool k⟩ := by
  cases c with
  | int v =>
    rw [loadReading, if_neg]
    rintro ⟨hinline, hrange⟩
    simp [isCarried, hinline, hrange] at h
  | str t =>
    rw [loadReading, if_neg]
    rintro ⟨hinline, hlen⟩
    simp [isCarried, hinline, Nat.le_min.1 hlen] at h
  | _ => rfl

/-- A constant that its load carries is not read as a reference. -/
theorem Constant.isCarried_eq_false_of_field {c : Constant} {dst : Operand} {k l : Nat}
    (h : (c.loadReading config dst k).field = .pool l) : c.isCarried config = false := by
  cases c with
  | int v =>
    rw [loadReading] at h
    split at h
    · cases h
    · next hnot => simpa [isCarried] using hnot
  | str t =>
    rw [loadReading] at h
    split at h
    · cases h
    · next hnot => simpa [isCarried] using hnot
  | _ => rfl

/-- **An instruction that refers to a constant** is first of all read as that reference. -/
theorem Instr.readings_of_poolRef? {i : Instr} {index : ConstIndex} {c : Constant}
    (h : i.poolRef? p config = some index) (hc : p.get? index = some c) :
    ∃ opcode regs rest, (opcode = .loadConst ∨ opcode = .loadClosure) ∧
      i.readings p config slot home = ⟨opcode, regs, .pool (slot index)⟩ :: rest := by
  cases i with
  | load dst index' =>
    rw [poolRef?] at h
    split at h
    · cases h
    · next hany =>
      obtain rfl := Option.some.inj h
      rw [hc, Option.any_some, Bool.not_eq_true] at hany
      rw [readings, hc, Option.toList_some, List.map_singleton,
        Constant.loadReading_of_isCarried_eq_false hany]
      exact ⟨.loadConst, [home dst], [], Or.inl rfl, rfl⟩
  | closure dst index' captures =>
    obtain rfl := Option.some.inj h
    exact ⟨.loadClosure, [home dst], _, Or.inr rfl, rfl⟩
  | _ => cases h

/-- **A reference that is read** is the first thing that its instruction is read as. -/
theorem Instr.poolRef?_of_getElem?_readings {i : Instr} {n k : Nat} {x : Reading}
    (h : (i.readings p config slot home)[n]? = some x) (hk : x.field = .pool k) :
    n = 0 ∧ ∃ index, i.poolRef? p config = some index ∧ k = slot index ∧
      (x.opcode = .loadClosure → ∃ dst captures, i = .closure dst index captures) := by
  rcases field_of_mem_readings (List.mem_of_getElem? h) with
    ⟨dst, index, rfl⟩ | ⟨dst, index, captures, rfl⟩ | ⟨hx, -⟩ | ⟨hx | ⟨b, hx⟩, -⟩
  · rw [readings] at h
    cases hc : p.get? index with
    | none => simp [hc] at h
    | some c =>
      rw [hc, Option.toList_some, List.map_singleton] at h
      obtain ⟨hn, hx⟩ := List.getElem?_eq_some_iff.1 h
      obtain rfl : n = 0 := Nat.lt_one_iff.1 hn
      obtain rfl : c.loadReading config (home dst) (slot index) = x := hx
      have hcarried := Constant.isCarried_eq_false_of_field hk
      rw [Constant.loadReading_of_isCarried_eq_false hcarried] at hk ⊢
      refine ⟨rfl, index, ?_, (Field.pool.inj hk).symm, fun hop ↦ ?_⟩
      · rw [poolRef?, hc, Option.any_some, hcarried, if_neg Bool.false_ne_true]
      · cases hop
  · cases n with
    | zero =>
      obtain rfl := Option.some.inj h
      exact ⟨rfl, index, rfl, (Field.pool.inj hk).symm, fun _ ↦ ⟨dst, captures, rfl⟩⟩
    | succ n =>
      rw [readings, List.getElem?_cons_succ, List.getElem?_map] at h
      obtain ⟨src, -, rfl⟩ := Option.map_eq_some_iff.1 h
      cases hk
  all_goals
    rw [hx] at hk
    cases hk

end Readings

/-- An element of a list of lists put in a row, by the list that it stems from. -/
theorem exists_of_getElem?_flatMap {α β : Type} {f : α → List β} {xs : List α} {n : Nat} {y : β}
    (h : (xs.flatMap f)[n]? = some y) :
    ∃ j x k, xs[j]? = some x ∧ (f x)[k]? = some y ∧ n = ((xs.take j).flatMap f).length + k := by
  induction xs generalizing n with
  | nil => cases h
  | cons x xs ih =>
    rw [List.flatMap_cons, List.getElem?_append] at h
    split at h
    · exact ⟨0, x, n, rfl, h, by simp⟩
    · next hn =>
      obtain ⟨j, z, k, hj, hk, hsum⟩ := ih h
      refine ⟨j + 1, z, k, hj, hk, ?_⟩
      rw [List.take_succ_cons, List.flatMap_cons, List.length_append]
      omega

/-- Conversely, the place in the row of an element of one of the lists. -/
theorem getElem?_flatMap_of_take {α β : Type} {f : α → List β} {xs : List α} {j k : Nat} {x : α}
    {y : β} (hj : xs[j]? = some x) (hk : (f x)[k]? = some y) :
    (xs.flatMap f)[((xs.take j).flatMap f).length + k]? = some y := by
  have hsplit : xs.flatMap f = (xs.take j).flatMap f ++ (f x ++ (xs.drop (j + 1)).flatMap f) := by
    conv_lhs => rw [eq_take_append_cons_drop hj]
    rw [List.flatMap_append, List.flatMap_cons]
  rw [hsplit, List.getElem?_append_right (Nat.le_add_right _ _), Nat.add_sub_cancel_left,
    List.getElem?_append_left (List.getElem?_eq_some_iff.1 hk).1, hk]

/-- The references to the pool in the code of a compiled body are those of its instructions, each
to the place of its constant in `order`. -/
structure Image.RefersBy (m : Image) (p : Program) (config : Config) (order : List ConstIndex)
    (f : Function) (body : Body) (frame : Frame) : Prop where
  /-- Where an instruction refers to a constant, the place of the constant is read. -/
  read : ∀ (j : Nat) (index : ConstIndex), body.RefersAt p config j index →
    ∃ o opcode regs, (m.offsets f.range.start f.range.stop)[body.readingsBefore p config
        order.idxOf frame.home j]? = some o ∧
      (opcode = .loadConst ∨ opcode = .loadClosure) ∧
      m.read? o = some ⟨opcode, regs, .pool (order.idxOf index)⟩
  /-- No place is read anywhere else, and one that a closure is made of holds a compiled body. -/
  only : ∀ o ∈ m.offsets f.range.start f.range.stop, ∀ opcode regs k,
    m.read? o = some ⟨opcode, regs, .pool k⟩ →
      ∃ j index, body.RefersAt p config j index ∧
        (m.offsets f.range.start f.range.stop)[body.readingsBefore p config order.idxOf
          frame.home j]? = some o ∧
        order[k]? = some index ∧ (opcode = .loadClosure → ∃ g, m.pool[k]? = some (.function g))

/-- What a walk finds at a given step. -/
theorem Image.exists_offset_of_readings {m : Image} {start stop : Nat} {xs : List Reading}
    (h : (m.offsets start stop).map m.read? = xs.map some) {n : Nat} {x : Reading}
    (hx : xs[n]? = some x) : ∃ o, (m.offsets start stop)[n]? = some o ∧ m.read? o = some x := by
  have hn := congrArg (·[n]?) h
  rw [List.getElem?_map, List.getElem?_map, hx, Option.map_some] at hn
  exact Option.map_eq_some_iff.1 hn

/-- **The references in the code of a body** follow from what a walk over it finds. -/
theorem Image.refersBy_of_map_read? {m : Image} {p : Program} {config : Config}
    {order : List ConstIndex} {f : Function} {body : Body} {frame : Frame} (hm : m.Holds p order)
    (hread : (m.offsets f.range.start f.range.stop).map m.read? =
      (body.readings p config order.idxOf frame.home).map some)
    (hmem : ∀ i ∈ body.code.toList, ∀ index, i.poolRef? p config = some index → index ∈ order)
    (hwf : ∀ i ∈ body.code.toList, i.WellFormed p) :
    m.RefersBy p config order f body frame where
  read := by
    rintro j index ⟨i, hi, href⟩
    have hin := hmem i (Array.mem_toList_iff.2 (Array.mem_of_getElem? hi)) index href
    obtain ⟨c, -, hc, -⟩ := hm.entries _ index (List.getElem?_idxOf hin)
    obtain ⟨opcode, regs, tail, hopcode, hfirst⟩ := Instr.readings_of_poolRef? href hc
    have hzero : (i.readings p config order.idxOf frame.home)[0]? =
        some ⟨opcode, regs, .pool (order.idxOf index)⟩ := by
      rw [hfirst]
      rfl
    rw [← Array.getElem?_toList] at hi
    have hplace : (body.code.toList.flatMap (Instr.readings p config order.idxOf
        frame.home))[body.readingsBefore p config order.idxOf frame.home j]? =
          some ⟨opcode, regs, .pool (order.idxOf index)⟩ :=
      getElem?_flatMap_of_take hi hzero
    have hx : (body.readings p config order.idxOf frame.home)[body.readingsBefore p config
        order.idxOf frame.home j]? = some ⟨opcode, regs, .pool (order.idxOf index)⟩ := by
      rw [Body.readings, List.getElem?_append_left (List.getElem?_eq_some_iff.1 hplace).1, hplace]
    obtain ⟨o, ho, hreado⟩ := exists_offset_of_readings hread hx
    exact ⟨o, opcode, regs, ho, hopcode, hreado⟩
  only := by
    intro o ho opcode regs k hk
    obtain ⟨n, hn⟩ := List.mem_iff_getElem?.1 ho
    have hx : (body.readings p config order.idxOf frame.home)[n]? =
        some ⟨opcode, regs, .pool k⟩ := by
      have hstep := congrArg (·[n]?) hread
      rw [List.getElem?_map, List.getElem?_map, hn, Option.map_some, hk] at hstep
      obtain ⟨x, hx, heq⟩ := Option.map_eq_some_iff.1 hstep.symm
      rw [hx, heq]
    -- the padding is no reference, so what is read stems from an instruction
    have hcode : (body.code.toList.flatMap (Instr.readings p config order.idxOf frame.home))[n]? =
        some ⟨opcode, regs, .pool k⟩ := by
      rw [Body.readings, List.getElem?_append] at hx
      split at hx
      · exact hx
      · have hpad := List.mem_of_getElem? hx
        split at hpad
        · cases List.mem_singleton.1 hpad
        · cases hpad
    obtain ⟨j, i, l, hj, hl, hsum⟩ := exists_of_getElem?_flatMap hcode
    obtain ⟨rfl, index, href, rfl, hclosure⟩ := Instr.poolRef?_of_getElem?_readings hl rfl
    have hi : i ∈ body.code.toList := List.mem_of_getElem? hj
    have hplace := List.getElem?_idxOf (hmem i hi index href)
    rw [Array.getElem?_toList] at hj
    refine ⟨j, index, ⟨i, hj, href⟩, ?_, hplace, fun hop ↦ ?_⟩
    · rw [← hn, hsum]
      rfl
    · obtain ⟨dst, captures, rfl⟩ := hclosure hop
      obtain ⟨b, hb⟩ := hwf _ hi
      obtain ⟨c, e, hc, he, hrep⟩ := hm.entries _ index hplace
      obtain rfl : .code b = c := Option.some.inj (hb.symm.trans hc)
      cases e with
      | function g => exact ⟨g, he⟩
      | _ => exact hrep.elim

/-! ### The main theorem -/

/-- Only a program whose entry is a body compiles. -/
theorem exists_entry_of_compile {program : Program} {config : Config} {image : Image}
    (h : compile program config = .ok image) :
    ∃ main, program.get? program.entry = some (.code main) := by
  rw [compile] at h
  split at h
  · next u t hrun =>
    rw [Session.run] at hrun
    split at hrun
    · next main hmain => exact ⟨main, hmain⟩
    · cases hrun
  · cases h
  · cases h

namespace Session.Finished

variable {program : Program} {config : Config} {order : List ConstIndex} {s : Session} {m : Image}

/-- The entry stands at the start of the stream. -/
theorem exists_first (h : Finished (Job.new program config) order s m) {main : Body}
    (hmain : program.get? program.entry = some (.code main)) :
    ∃ f, m.pool[0]? = some (.function f) ∧ f.range.start = 0 := by
  obtain ⟨c, e, hc, he, hrep⟩ := h.holds.entries 0 program.entry h.holds.first
  obtain rfl : .code main = c := Option.some.inj (hmain.symm.trans hc)
  have hentry := h.built.pool 0 program.entry h.holds.first
  rw [← h.pool, he] at hentry
  cases e with
  | function f =>
    obtain ⟨g, -, rfl⟩ := Job.entryOf?_eq_function_iff.1 hentry.symm
    exact ⟨_, he, rfl⟩
  | _ => exact hrep.elim

end Session.Finished

/-- **The pool is the breadth-first closure of the entry.** Its entries are those of the constants
that the program needs, each once and in breadth-first order; the entry comes first and its code
stands at the start of the stream; and every reference to the pool in the code is to the place of
its constant in that order. -/
theorem Image.pool_eq_breadthFirst_of_compile {program : Program} {config : Config} {image : Image}
    (h : compile program config = .ok image) :
    image.Holds program (program.breadthFirst config) ∧
      (∃ main f, program.get? program.entry = some (.code main) ∧
        image.pool[0]? = some (.function f) ∧ f.range.start = 0) ∧
      ∀ (slot : Nat) (f : Function), image.pool[slot]? = some (.function f) →
        ∃ index body frame, (program.breadthFirst config)[slot]? = some index ∧
          program.get? index = some (.code body) ∧ Frame.allocate body = .ok frame ∧
          image.RefersBy program config (program.breadthFirst config) f body frame := by
  obtain ⟨order, s, hfin⟩ := compile_eq_ok h
  obtain ⟨main, hmain⟩ := exists_entry_of_compile h
  obtain ⟨f₀, hf₀, hstart⟩ := hfin.exists_first hmain
  rw [← hfin.order_eq]
  refine ⟨hfin.holds, ⟨main, f₀, hmain, hf₀, hstart⟩, fun slot f hf ↦ ?_⟩
  obtain ⟨index, g, n, hindex, hseg, hn, hrange⟩ := hfin.exists_segment hf
  obtain ⟨hbody, hframe⟩ := Job.segment?_eq_some_iff.1 hseg
  have hsound := hfin.built.laid.sound g (List.mem_of_getElem? hn)
  have hread := hfin.map_read?_offsets_segment hn
  rw [← hrange] at hread
  refine ⟨index, g.body, g.frame, hindex, hbody, hframe,
    refersBy_of_map_read? hfin.holds ?_ (fun i hi c href ↦ ?_) fun i hi ↦ ?_⟩
  · rw [← g.body.readings_clamped program config]
    exact hread
  · obtain ⟨d, hd, hmem⟩ := hsound.supplied i hi
    rw [Job.eq_poolRef?_of_demand hd, href] at hmem
    exact hmem c rfl
  · obtain ⟨d, hd, -⟩ := hsound.supplied i hi
    exact Job.exists_demand_iff.1 ⟨d, hd⟩

/-- Of the constants of the pair, the integer is carried by its load, and the two bodies refer to
each other. The closure that the first one makes of the second is read as a reference to the last
of three places. -/
theorem Image.pool_eq_breadthFirst_pair :
    ∃ image f o opcode regs, compile Program.pair {} = .ok image ∧
      Program.pair.breadthFirst {} = [0, 2, 3] ∧ image.Holds Program.pair [0, 2, 3] ∧
      image.pool[0]? = some (.function f) ∧ o ∈ image.offsets f.range.start f.range.stop ∧
      image.read? o = some ⟨opcode, regs, .pool 2⟩ := by
  obtain ⟨image, f, himage, hf⟩ :
      ∃ image f, compile Program.pair {} = .ok image ∧ image.pool[0]? = some (.function f) :=
    exists_main (by decide +kernel)
  obtain ⟨hholds, -, hall⟩ := pool_eq_breadthFirst_of_compile himage
  obtain ⟨index, body, frame, hindex, hbody, -, hrefers⟩ := hall 0 f hf
  have horder : Program.pair.breadthFirst {} = [0, 2, 3] := by decide +kernel
  rw [horder] at hholds hindex hrefers
  obtain rfl : 0 = index := Option.some.inj hindex
  obtain rfl : Body.looping = body := Constant.code.inj (Option.some.inj hbody)
  obtain ⟨o, opcode, regs, ho, -, hread⟩ := hrefers.read 2 3 ⟨_, rfl, rfl⟩
  exact ⟨image, f, o, opcode, regs, himage, horder, hholds, hf, List.mem_of_getElem? ho, hread⟩

end RegisterBytecode
