import Mathlib.Order.Bounds.Basic
import RegisterBytecode.Proofs.Alloc.Renaming

/-!
# When storage can be chosen, and what it is

The choice of storage for a body checks four things, each only if the ones before it were in order:
that no upvalue is captured, and that cells, upvalues and registers respect `operandLimit`.
`Frame.allocate_outcome` gives the exact condition of each outcome in terms of the body, and says
what a frame looks like where all four are in order (`Frame.Describes`).

Two of the conditions are computed in one pass over the body. Upvalues are counted by the greatest
index that is named or mentioned (`Body.upvalueCount_le_iff`); captured locals are numbered along an
ordered set, where the number of a local is the number of captured registers below it
(`Body.getElem?_toList_captured`).
-/

namespace RegisterBytecode

theorem Reg.isUpval_iff {r : Reg} : r.isUpval = true ↔ r.id < 0 := by
  cases r with
  | loc n => simp [isUpval, id]
  | upval k =>
    simp only [isUpval, id, true_iff]
    omega

theorem Reg.isUpval_eq_false_iff {r : Reg} : r.isUpval = false ↔ 0 ≤ r.id := by
  rw [← Bool.not_eq_true, isUpval_iff, Int.not_lt]

namespace Body

/-- The number of captured registers below a local. -/
def rank (b : Body) (n : Nat) : Nat := b.captured.toList.countP fun r : Reg ↦ r.id < (n : Int)

/-- **A captured local stands at its rank** among the captured registers. -/
theorem getElem?_toList_captured {b : Body} {n : Nat} (hn : Reg.loc n ∈ b.captured) :
    b.captured.toList[b.rank n]? = some (.loc n) := by
  have hasc : b.captured.toList.Pairwise fun r s ↦ r.id < s.id :=
    Std.TreeSet.ordered_toList.imp Reg.compare_eq_lt.1
  obtain ⟨below, above, hsplit⟩ := List.append_of_mem (Std.TreeSet.mem_toList.2 hn)
  rw [hsplit, List.pairwise_append, List.pairwise_cons] at hasc
  obtain ⟨-, ⟨habove, -⟩, hbelow⟩ := hasc
  have hrank : b.rank n = below.length := by
    have hlow : below.countP (fun r : Reg ↦ r.id < (n : Int)) = below.length := by
      refine List.countP_eq_length.2 fun r hr ↦ ?_
      exact decide_eq_true (hbelow r hr (.loc n) List.mem_cons_self)
    have hhigh : (Reg.loc n :: above).countP (fun r : Reg ↦ r.id < (n : Int)) = 0 := by
      refine List.countP_eq_zero.2 fun r hr ↦ ?_
      rcases List.mem_cons.1 hr with rfl | hr
      · simp [Reg.id]
      · have hlt : (n : Int) < r.id := habove r hr
        simpa using Int.le_of_lt hlt
    rw [rank, hsplit, List.countP_append, hlow, hhigh, Nat.add_zero]
  rw [hrank, hsplit, List.getElem?_append_right (Nat.le_refl _), Nat.sub_self]
  rfl

theorem rank_lt {b : Body} {n : Nat} (hn : Reg.loc n ∈ b.captured) :
    b.rank n < b.captured.size := by
  obtain ⟨hlt, -⟩ := List.getElem?_eq_some_iff.1 (getElem?_toList_captured hn)
  rwa [Std.TreeSet.length_toList] at hlt

/-- There are more than `m` upvalues exactly if one from `m` on is mentioned or named. -/
theorem lt_upvalueCount_iff {b : Body} {m : Nat} :
    m < b.upvalueCount ↔ ∃ k, b.UsesUpvalue k ∧ m ≤ k := by
  rw [← Nat.not_le, upvalueCount_le_iff]
  push Not
  rfl

/-- **One more than the greatest upvalue in use**, or `0` if there is none. -/
theorem upvalueCount_cases (b : Body) :
    b.upvalueCount = 0 ∧ (∀ k, ¬b.UsesUpvalue k) ∨
      ∃ k, IsGreatest {k | b.UsesUpvalue k} k ∧ b.upvalueCount = k + 1 := by
  have hall : ∀ k, b.UsesUpvalue k → k < b.upvalueCount := upvalueCount_le_iff.1 (Nat.le_refl _)
  cases hcount : b.upvalueCount with
  | zero => exact Or.inl ⟨rfl, fun k hk ↦ Nat.not_lt_zero k (hcount ▸ hall k hk)⟩
  | succ c =>
    obtain ⟨k, hk, hle⟩ : ∃ k, b.UsesUpvalue k ∧ c ≤ k := lt_upvalueCount_iff.1 (by omega)
    have heq : k = c := by
      have := hall k hk
      omega
    refine Or.inr ⟨c, ⟨heq ▸ hk, fun j hj ↦ ?_⟩, rfl⟩
    have := hall j hj
    omega

end Body

namespace Frame

/-- What a frame for a body looks like. -/
structure Describes (f : Frame) (b : Body) : Prop where
  /-- There are as many cells as captured locals. -/
  cells : f.cells.toNat = b.captured.size
  /-- There is one more upvalue than the greatest index in use. -/
  upvalues : f.upvalues.toNat = 0 ∧ (∀ k, ¬b.UsesUpvalue k) ∨
    ∃ k, IsGreatest {k | b.UsesUpvalue k} k ∧ f.upvalues.toNat = k + 1
  /-- There are as many registers as the scan gives out. -/
  registers : Scan.run b.liveSpans b.cellHomes = some (f.registers.toNat, f.homes)
  /-- A captured local has the cell of its rank, mentioned or not. -/
  cell : ∀ n, Reg.loc n ∈ b.captured →
    ∃ k : UInt16, f.operand (.loc n) = .ok (.cell k) ∧ k.toNat = b.rank n
  /-- Any other local that is mentioned has a register. -/
  register : ∀ n, Reg.loc n ∉ b.captured → (∃ p, b.MentionsAt p (.loc n)) →
    ∃ k : UInt16, f.operand (.loc n) = .ok (.register k)

/-- **A chosen frame describes its body**, in all of its parts. -/
theorem describes_of_allocate {b : Body} {f : Frame} (h : allocate b = .ok f) :
    f.Describes b := by
  obtain ⟨⟨m, hm, hrun, hregs⟩, hcells, hups⟩ := toNat_counts h
  obtain ⟨-, hclim, -⟩ := allocate_eq_ok h
  refine ⟨hcells, ?_, hregs ▸ hrun, fun n hn ↦ ?_, fun n hn ⟨p, hp⟩ ↦ ?_⟩
  · rw [hups]
    exact b.upvalueCount_cases
  · have hhome := getElem?_homes_of_captured h (Body.getElem?_toList_captured hn)
    refine ⟨_, by rw [operand, hhome], ?_⟩
    exact toNat_toUInt16 (Nat.le_trans (Nat.le_of_lt (Body.rank_lt hn)) hclim)
  · obtain ⟨s, hs, -⟩ := Body.exists_liveSpan hp (Body.needsRegister_loc.2 hn)
    obtain ⟨k, -, hhome⟩ := Scan.run_register (fun _ _ ↦ Body.liveSpan_start_le_stop) hrun hs
    exact ⟨_, by rw [operand, hhome]⟩

/-- **The outcome of choosing storage**, for every body. A captured upvalue is a fault, whatever
else is wrong; then the limits of cells, of upvalues and of registers are checked in this order; and
if all is in order, there is a frame that describes the body. -/
theorem allocate_outcome (b : Body) :
    ((∃ fault, allocate b = .error (.fault fault)) ↔ ∃ r ∈ b.captured, r.id < 0) ∧
      (allocate b = .error (.error ⟨.cells b.name operandLimit, none⟩) ↔
        (∀ r ∈ b.captured, 0 ≤ r.id) ∧ operandLimit < b.captured.size) ∧
      (allocate b = .error (.error ⟨.upvalues b.name operandLimit, none⟩) ↔
        (∀ r ∈ b.captured, 0 ≤ r.id) ∧ b.captured.size ≤ operandLimit ∧
          ∃ k, b.UsesUpvalue k ∧ operandLimit ≤ k) ∧
      (allocate b = .error (.error ⟨.registers b.name operandLimit, none⟩) ↔
        (∀ r ∈ b.captured, 0 ≤ r.id) ∧ b.captured.size ≤ operandLimit ∧
          (∀ k, b.UsesUpvalue k → k < operandLimit) ∧
          Scan.run b.liveSpans b.cellHomes = none) ∧
      ((∃ f, allocate b = .ok f) ↔
        (∀ r ∈ b.captured, 0 ≤ r.id) ∧ b.captured.size ≤ operandLimit ∧
          (∀ k, b.UsesUpvalue k → k < operandLimit) ∧
          Scan.run b.liveSpans b.cellHomes ≠ none) ∧
      ∀ f, allocate b = .ok f → f.Describes b := by
  have hdescribes := fun f ↦ describes_of_allocate (b := b) (f := f)
  have hend := ending_allocate b
  rw [← Body.lt_upvalueCount_iff, ← Body.upvalueCount_le_iff]
  simp only [← Reg.isUpval_iff, ← Reg.isUpval_eq_false_iff]
  -- each way to end excludes the conditions of the others
  generalize allocate b = outcome at hend hdescribes ⊢
  cases hend with
  | capturedUpvalue hr hup =>
    have hnot : ¬∀ r ∈ b.captured, r.isUpval = false := by
      intro hloc
      rw [hloc _ hr] at hup
      cases hup
    simpa [hnot] using ⟨_, hr, hup⟩
  | cells hloc hcells => simpa [hcells, Nat.not_le.2 hcells] using hloc
  | upvalues hloc hcells hups => simpa [hcells, hups, Nat.not_le.2 hups] using hloc
  | registers hloc hcells hups hrun => simpa [hcells, hups, hrun] using hloc
  | chosen hloc hcells hups hrun =>
    simpa [hcells, hups, hrun] using And.intro hloc (hdescribes _ rfl)

end Frame

end RegisterBytecode
