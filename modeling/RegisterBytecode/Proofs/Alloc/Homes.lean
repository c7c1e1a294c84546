import RegisterBytecode.Alloc.Frame
import RegisterBytecode.Proofs.Alloc.Apart
import RegisterBytecode.Proofs.Alloc.Mentions

/-!
# Every register of a body has a home

A frame is chosen in four steps, any of which may fail. `Frame.ending_allocate` lists the ways in
which that ends, each with what was found out on the way; `Frame.allocate_eq_ok` is the successful
one, and `Frame.exists_operand` draws the consequence that the rest of the compiler relies on:
**every** register that an instruction of the body mentions has storage, and its index lies below
the count that the frame announces for that kind of storage. The counts respect `operandLimit`
(`Frame.Addresses.index_lt`), so an operand's index always fits its word.

The three kinds of storage need three arguments: a captured local has the cell of its rank, any
other mentioned local has a live span and is served by the scan, and an upvalue is counted where
it is mentioned.
-/

namespace RegisterBytecode

namespace Body

theorem mem_regs {b : Body} {r : Reg} : r ∈ b.regs ↔ ∃ p, b.MentionsAt p r := by
  simp only [regs, List.mem_flatMap, MentionsAt, Array.mem_toList_iff, Array.mem_iff_getElem?]
  constructor
  · rintro ⟨i, ⟨p, hp⟩, hr⟩
    exact ⟨p, i, hp, hr⟩
  · rintro ⟨p, i, hp, hr⟩
    exact ⟨i, ⟨p, hp⟩, hr⟩

/-- A local needs a register of its own unless it is captured. -/
theorem needsRegister_loc {b : Body} {n : Nat} :
    b.needsRegister (.loc n) = true ↔ Reg.loc n ∉ b.captured := by
  rw [needsRegister, Bool.not_eq_true', ← Bool.not_eq_true, Std.TreeSet.contains_iff_mem]

/-! ### Cells -/

theorem cellHomes_eq_foldl (b : Body) :
    b.cellHomes = b.captured.toList.zipIdx.foldl
      (insertKeyed (fun x ↦ x.1.loc?) fun x ↦ .cell x.2.toUInt16) ∅ := by
  unfold cellHomes
  congr 1
  funext t x
  obtain ⟨r, i⟩ := x
  cases r <;> rfl

theorem loc?_eq_some_iff {r : Reg} {n : Nat} : r.loc? = some n ↔ r = .loc n := by
  cases r <;> simp [Reg.loc?]

theorem nodup_captured (b : Body) : b.captured.toList.Nodup :=
  Std.TreeSet.distinct_toList.imp fun {r s} (h : ¬compare r s = .eq) (heq : r = s) ↦
    h (heq ▸ Std.ReflCmp.compare_self)

/-- A captured local has the cell of its rank among the captured registers. -/
theorem getElem?_cellHomes {b : Body} {n i : Nat}
    (h : b.captured.toList[i]? = some (.loc n)) : b.cellHomes[n]? = some (.cell i.toUInt16) := by
  have hmem : (Reg.loc n, i) ∈ b.captured.toList.zipIdx := List.mk_mem_zipIdx_iff_getElem?.2 h
  rw [cellHomes_eq_foldl]
  refine getElem?_foldl_insertKeyed_of_mem hmem rfl fun y hy hkey ↦ ?_
  obtain ⟨r, j⟩ := y
  obtain rfl : r = .loc n := loc?_eq_some_iff.1 hkey
  have hj := List.mk_mem_zipIdx_iff_getElem?.1 hy
  have hlt : i < b.captured.toList.length := (List.getElem?_eq_some_iff.1 h).1
  rw [(List.getElem?_inj hlt b.nodup_captured).1 (h.trans hj.symm)]

/-! ### Upvalues -/

/-- Raise a count over the upvalue that a register names. -/
def noteUpvalue (n : Nat) : Reg → Nat
  | .loc _ => n
  | .upval k => max n (k + 1)

theorem upvalueCount_eq_foldl (b : Body) :
    b.upvalueCount =
      b.regs.foldl noteUpvalue (b.upvalueNames.foldl (fun n k _ ↦ max n (k + 1)) 0) := by
  unfold upvalueCount
  congr 1

/-- Counting upvalues that are mentioned raises a count just above all of them. -/
theorem foldl_noteUpvalue_le_iff {rs : List Reg} {n m : Nat} :
    rs.foldl noteUpvalue n ≤ m ↔ n ≤ m ∧ ∀ k, Reg.upval k ∈ rs → k < m := by
  induction rs generalizing n with
  | nil => simp
  | cons r rs ih =>
    rw [List.foldl_cons, ih]
    cases r with
    | loc l => simp [noteUpvalue]
    | upval l =>
      simp only [noteUpvalue, Nat.max_le, List.mem_cons, Reg.upval.injEq, forall_eq_or_imp,
        and_assoc, Nat.succ_le_iff]

/-- Counting upvalues that are named ends just above all of them. -/
theorem foldl_named_le_iff {t : Std.TreeMap Nat String} {m : Nat} :
    t.foldl (fun n k _ ↦ max n (k + 1)) 0 ≤ m ↔ ∀ k ∈ t, k < m := by
  have hlist : ∀ (l : List (Nat × String)) (n : Nat),
      l.foldl (fun n x ↦ max n (x.1 + 1)) n ≤ m ↔ n ≤ m ∧ ∀ x ∈ l, x.1 < m := by
    intro l
    induction l with
    | nil => simp
    | cons x l ih =>
      intro n
      rw [List.foldl_cons, ih, Nat.max_le, List.forall_mem_cons, Nat.succ_le_iff, and_assoc]
  rw [Std.TreeMap.foldl_eq_foldl_toList, hlist]
  simp only [Prod.forall, Std.TreeMap.mem_toList_iff_getElem?_eq_some, mem_iff_exists_getElem?]
  constructor
  · rintro ⟨-, h⟩ k ⟨name, hk⟩
    exact h k name hk
  · intro h
    exact ⟨Nat.zero_le m, fun k name hk ↦ h k ⟨name, hk⟩⟩

/-- Upvalue `k` is named, or some instruction mentions it. -/
def UsesUpvalue (b : Body) (k : Nat) : Prop :=
  k ∈ b.upvalueNames ∨ ∃ p, b.MentionsAt p (.upval k)

/-- **The number of upvalues** is the least one that is greater than every index in use. -/
theorem upvalueCount_le_iff {b : Body} {m : Nat} :
    b.upvalueCount ≤ m ↔ ∀ k, b.UsesUpvalue k → k < m := by
  rw [upvalueCount_eq_foldl, foldl_noteUpvalue_le_iff, foldl_named_le_iff]
  constructor
  · rintro ⟨hnamed, hmentioned⟩ k (hk | hk)
    · exact hnamed k hk
    · exact hmentioned k (mem_regs.2 hk)
  · intro h
    exact ⟨fun k hk ↦ h k (Or.inl hk), fun k hk ↦ h k (Or.inr (mem_regs.1 hk))⟩

/-- An upvalue that is mentioned is counted. -/
theorem lt_upvalueCount {b : Body} {k : Nat} (h : Reg.upval k ∈ b.regs) : k < b.upvalueCount :=
  upvalueCount_le_iff.1 (Nat.le_refl _) k (Or.inr (mem_regs.1 h))

end Body

namespace Frame

/-- A frame has storage for an operand: its index lies below the count of its kind. -/
def Addresses (f : Frame) : Operand → Prop
  | .register i => i.toNat < f.registers.toNat
  | .cell i => i.toNat < f.cells.toNat
  | .upvalue i => i.toNat < f.upvalues.toNat

/-- How the choice of storage for a body can end, with all that was found out on the way. -/
inductive Ending (b : Body) : Except Stop Frame → Prop where
  | capturedUpvalue {r : Reg} (hr : r ∈ b.captured) (hup : r.isUpval = true) :
      Ending b (.error (.fault (.capturedUpvalue r b.name)))
  | cells (hloc : ∀ r ∈ b.captured, r.isUpval = false) (hcells : operandLimit < b.captured.size) :
      Ending b (.error (.error ⟨.cells b.name operandLimit, none⟩))
  | upvalues (hloc : ∀ r ∈ b.captured, r.isUpval = false)
      (hcells : b.captured.size ≤ operandLimit) (hups : operandLimit < b.upvalueCount) :
      Ending b (.error (.error ⟨.upvalues b.name operandLimit, none⟩))
  | registers (hloc : ∀ r ∈ b.captured, r.isUpval = false)
      (hcells : b.captured.size ≤ operandLimit) (hups : b.upvalueCount ≤ operandLimit)
      (hrun : Scan.run b.liveSpans b.cellHomes = none) :
      Ending b (.error (.error ⟨.registers b.name operandLimit, none⟩))
  | chosen {n : Nat} {homes : Std.TreeMap Nat Operand}
      (hloc : ∀ r ∈ b.captured, r.isUpval = false) (hcells : b.captured.size ≤ operandLimit)
      (hups : b.upvalueCount ≤ operandLimit)
      (hrun : Scan.run b.liveSpans b.cellHomes = some (n, homes)) :
      Ending b (.ok ⟨homes, n.toUInt16, b.captured.size.toUInt16, b.upvalueCount.toUInt16⟩)

/-- **Every choice of storage ends in one of these ways.** -/
theorem ending_allocate (b : Body) : Ending b (allocate b) := by
  unfold allocate
  split
  · next r hfind =>
    exact .capturedUpvalue (Std.TreeSet.mem_toList.1 (List.mem_of_find?_eq_some hfind))
      (List.find?_some hfind)
  · next hfind =>
    have hloc : ∀ r ∈ b.captured, r.isUpval = false := by
      intro r hr
      have := List.find?_eq_none.1 hfind r (Std.TreeSet.mem_toList.2 hr)
      simpa using this
    split
    · next hcells => exact .cells hloc hcells
    · next hcells =>
      rw [Nat.not_lt] at hcells
      dsimp only
      split
      · next hups => exact .upvalues hloc hcells hups
      · next hups =>
        rw [Nat.not_lt] at hups
        split
        · next hrun => exact .registers hloc hcells hups hrun
        · next n homes hrun => exact .chosen hloc hcells hups hrun

/-- **What a successful choice of storage went through.** -/
theorem allocate_eq_ok {b : Body} {f : Frame} (h : allocate b = .ok f) :
    (∀ r ∈ b.captured, r.isUpval = false) ∧ b.captured.size ≤ operandLimit ∧
      b.upvalueCount ≤ operandLimit ∧
      ∃ n, Scan.run b.liveSpans b.cellHomes = some (n, f.homes) ∧
        f.registers = n.toUInt16 ∧ f.cells = b.captured.size.toUInt16 ∧
        f.upvalues = b.upvalueCount.toUInt16 := by
  have hend := ending_allocate b
  rw [h] at hend
  cases hend with
  | chosen hloc hcells hups hrun => exact ⟨hloc, hcells, hups, _, hrun, rfl, rfl, rfl⟩

section Allocated

variable {b : Body} {f : Frame} (h : allocate b = .ok f)

include h

/-- The counts that a frame announces are those that were computed: none is cut off. -/
theorem toNat_counts :
    (∃ n, n ≤ operandLimit ∧ Scan.run b.liveSpans b.cellHomes = some (n, f.homes) ∧
      f.registers.toNat = n) ∧
      f.cells.toNat = b.captured.size ∧ f.upvalues.toNat = b.upvalueCount := by
  obtain ⟨-, hcells, hup, n, hrun, hr, hc, hu⟩ := allocate_eq_ok h
  have hn := Scan.run_count_le (fun _ _ ↦ Body.liveSpan_start_le_stop) hrun
  rw [hr, hc, hu]
  exact ⟨⟨n, hn, hrun, toNat_toUInt16 hn⟩, toNat_toUInt16 hcells, toNat_toUInt16 hup⟩

/-- An operand that the frame has storage for fits its word. -/
theorem Addresses.index_lt {o : Operand} (ho : f.Addresses o) : o.index.toNat < operandLimit := by
  obtain ⟨⟨n, hn, -, hr⟩, hc, hu⟩ := toNat_counts h
  obtain ⟨-, hcells, hup, -⟩ := allocate_eq_ok h
  cases o <;> simp only [Addresses, Operand.index] at ho ⊢ <;> omega

/-- A captured local has the cell of its rank, whether it is mentioned or not. -/
theorem getElem?_homes_of_captured {n i : Nat} (hi : b.captured.toList[i]? = some (.loc n)) :
    f.homes[n]? = some (.cell i.toUInt16) := by
  obtain ⟨⟨m, -, hrun, -⟩, -⟩ := toNat_counts h
  have hn : Reg.loc n ∈ b.captured := Std.TreeSet.mem_toList.1 (List.mem_of_getElem? hi)
  -- mentions of captured locals do not count, so the scan leaves the cell alone
  have hspan : b.liveSpans[n]? = none := by
    have hpos : b.positionsOf n = [] := by
      refine List.eq_nil_iff_forall_not_mem.2 fun p hp ↦ ?_
      exact Body.needsRegister_loc.1 (Body.mem_positionsOf.1 hp).2 hn
    rw [Body.getElem?_liveSpans, Body.getElem?_mentionSpans, hpos]
    rfl
  rw [Scan.run_of_getElem?_eq_none (fun _ _ ↦ Body.liveSpan_start_le_stop) hrun hspan]
  exact Body.getElem?_cellHomes hi

/-- A captured local has a cell. -/
theorem exists_cell {n : Nat} (hn : Reg.loc n ∈ b.captured) :
    ∃ i : Nat, i < b.captured.size ∧ f.homes[n]? = some (.cell i.toUInt16) := by
  obtain ⟨i, hi, hget⟩ := List.mem_iff_getElem.1 (Std.TreeSet.mem_toList.2 hn)
  have hhome := getElem?_homes_of_captured h (List.getElem?_eq_some_iff.2 ⟨hi, hget⟩)
  rw [Std.TreeSet.length_toList] at hi
  exact ⟨i, hi, hhome⟩

/-- **Every register that the body mentions has storage** in the frame. -/
theorem exists_operand {r : Reg} (hr : r ∈ b.regs) : ∃ o, f.operand r = .ok o ∧ f.Addresses o := by
  obtain ⟨⟨m, hm, hrun, hregs⟩, hcells, hups⟩ := toNat_counts h
  obtain ⟨-, hclim, hulim, -⟩ := allocate_eq_ok h
  have hcut : ∀ {k l : Nat}, k < l → l ≤ operandLimit → k.toUInt16.toNat < l := by
    intro k l hk hl
    rwa [toNat_toUInt16 (Nat.le_trans (Nat.le_of_lt hk) hl)]
  cases r with
  | upval k =>
    refine ⟨_, rfl, ?_⟩
    rw [Addresses, hups]
    exact hcut (Body.lt_upvalueCount hr) hulim
  | loc n =>
    obtain ⟨p, hp⟩ := Body.mem_regs.1 hr
    by_cases hn : Reg.loc n ∈ b.captured
    · obtain ⟨i, hi, hhome⟩ := exists_cell h hn
      refine ⟨_, by rw [operand, hhome], ?_⟩
      rw [Addresses, hcells]
      exact hcut hi hclim
    · obtain ⟨s, hs, -⟩ := Body.exists_liveSpan hp (Body.needsRegister_loc.2 hn)
      obtain ⟨k, hk, hhome⟩ :=
        Scan.run_register (fun _ _ ↦ Body.liveSpan_start_le_stop) hrun hs
      refine ⟨_, by rw [operand, hhome], ?_⟩
      rw [Addresses, hregs]
      exact hcut hk hm

end Allocated

end Frame

end RegisterBytecode
