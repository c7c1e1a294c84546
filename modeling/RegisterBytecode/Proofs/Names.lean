import Mathlib.Data.Set.Finite.Lattice
import Mathlib.Data.Set.Piecewise
import Mathlib.Order.Bounds.Basic
import RegisterBytecode.Proofs.Session.Mirror

/-!
# The names of labels and locals do not matter

The labels and the locals of a body are numbers, and the numbers of locals decide which storage they
get. They do so by their order alone, and labels only by being the same or not. Each body of a
program may therefore be given names of its own (`Program.rename`), as long as its labels stay
different and its locals stay in their order (`Naming.Suits`): the image is the same. That bodies
are renamed independently of each other also says that **labels of different bodies never meet**,
since two bodies that share a label need not share it afterwards.

Names matter only where the body has them. The labels of a body are finitely many, so new names for
them extend to all labels without a clash (`exists_injective_eqOn`), and the body does not notice
(`Instr.rename_congr_label`).
-/

namespace RegisterBytecode

/-! ### Renaming a program -/

/-- The labels that a body binds or jumps to. -/
def Body.labelNames (b : Body) : Set Label :=
  {l | ∃ i ∈ b.code.toList, i.binds? = some l ∨ i.target? = some l}

/-- A body with other labels and locals, in its instructions and among the captured ones. -/
def Body.rename (ν : Naming) (b : Body) : Body :=
  { b with
    code := b.code.map (Instr.rename ν)
    captured := Std.TreeSet.ofList (b.captured.toList.map (Reg.rename ν)) }

/-- A constant under other names, if it is a body. -/
def Constant.rename (ν : Naming) : Constant → Constant
  | code body => code (body.rename ν)
  | c => c

/-- A program with names of their own for the labels and locals of each body. -/
def Program.rename (p : Program) (names : ConstIndex → Naming) : Program :=
  { p with constants := p.constants.mapIdx fun c k ↦ k.rename (names c) }

/-- New names suit a body if its labels stay different and its locals stay in their order. -/
structure Naming.Suits (ν : Naming) (b : Body) : Prop where
  label : Set.InjOn ν.label b.labelNames
  loc : StrictMonoOn ν.loc b.localNames

theorem Program.get?_rename (p : Program) (names : ConstIndex → Naming) (c : ConstIndex) :
    (p.rename names).get? c = (p.get? c).map (Constant.rename (names c)) :=
  Array.getElem?_mapIdx

/-! ### Names beyond those of the body -/

/-- A body has finitely many labels, so names for them can be extended to all labels. -/
theorem Body.finite_labelNames (b : Body) : b.labelNames.Finite := by
  have hsub : b.labelNames ⊆
      {l | l ∈ b.code.toList.filterMap Instr.binds? ++ b.code.toList.filterMap Instr.target?} := by
    rintro l ⟨i, hi, hl | hl⟩
    · exact List.mem_append_left _ (List.mem_filterMap.2 ⟨i, hi, hl⟩)
    · exact List.mem_append_right _ (List.mem_filterMap.2 ⟨i, hi, hl⟩)
  exact (List.finite_toSet _).subset hsub

/-- New names for finitely many labels extend to all labels without a clash: the others go beyond
every new name. -/
theorem exists_injective_eqOn {s : Set Nat} (hs : s.Finite) {f : Nat → Nat} (hf : Set.InjOn f s) :
    ∃ g : Nat → Nat, Function.Injective g ∧ Set.EqOn g f s := by
  classical
  obtain ⟨bound, hbound⟩ := (hs.image f).bddAbove
  -- what is not in `s` gets names beyond all that `f` gives to `s`
  refine ⟨s.piecewise f fun n ↦ bound + 1 + n, ?_, s.piecewise_eqOn f _⟩
  refine (Set.injective_piecewise_iff _).2 ⟨hf, fun m _ n _ h ↦ Nat.add_left_cancel h, ?_⟩
  intro m hm n _ heq
  have hle : f m ≤ bound := hbound (Set.mem_image_of_mem f hm)
  omega

/-- Names of labels matter only where an instruction binds one or leads to one. -/
theorem Instr.rename_congr_label {ν : Naming} {f : Label → Label} {i : Instr}
    (h : ∀ l, i.binds? = some l ∨ i.target? = some l → f l = ν.label l) :
    i.rename { ν with label := f } = i.rename ν := by
  have hreg : Reg.rename { ν with label := f } = Reg.rename ν := by
    funext r
    cases r <;> rfl
  cases i with
  | jump target => exact congrArg _ (h target (Or.inr rfl))
  | branch cond target negate =>
    rw [rename, rename, hreg]
    exact congrArg (branch _ · negate) (h target (Or.inr rfl))
  | label l => exact congrArg _ (h l (Or.inl rfl))
  | _ => simp only [rename, hreg]

/-- Names that suit a body, extended to all labels without a clash, rename it. -/
theorem Body.renamed_rename {ν : Naming} {b : Body} (h : ν.Suits b) {f : Label → Label}
    (hf : Function.Injective f) (heq : Set.EqOn f ν.label b.labelNames) :
    b.Renamed id { ν with label := f } (b.rename ν) where
  name := rfl
  code := by
    refine Array.map_congr_left fun i hi ↦ ?_
    have hcongr : i.rename { ν with label := f } = i.rename ν :=
      Instr.rename_congr_label fun l hl ↦ heq ⟨i, Array.mem_toList_iff.2 hi, hl⟩
    rw [hcongr, Instr.renumber_id]
  lines := rfl
  captured := by
    intro r
    simp only [rename, Std.TreeSet.mem_ofList, List.contains_iff_mem, List.mem_map,
      Std.TreeSet.mem_toList]
    exact Iff.rfl
  upvalueNames := rfl
  label_injective := hf
  loc_strictMonoOn := h.loc

/-- A renamed body is renamed without a clash beyond its own labels, too. -/
theorem Naming.Suits.exists_renamed {ν : Naming} {b : Body} (h : ν.Suits b) :
    ∃ label : Label → Label, b.Renamed id { ν with label := label } (b.rename ν) := by
  obtain ⟨f, hf, heq⟩ := exists_injective_eqOn b.finite_labelNames h.label
  exact ⟨f, Body.renamed_rename h hf heq⟩

/-! ### The mirror -/

/-- A program and the renamed one mirror each other, constant by constant. -/
theorem Program.rename_mirrors {p : Program} {names : ConstIndex → Naming}
    {label : ConstIndex → Label → Label}
    (h : ∀ c body, p.get? c = some (.code body) →
      body.Renamed id { names c with label := label c } (body.rename (names c)))
    (config : Config) :
    (Job.new p config).Mirrors { names := fun c ↦ { names c with label := label c } }
      (Job.new (p.rename names) config) where
  entry := rfl
  entry_mem := trivial
  injOn := Function.injective_id.injOn
  get? := by
    intro c _
    show Option.Rel _ (p.get? c) ((p.rename names).get? c)
    rw [p.get?_rename]
    cases hc : p.get? c with
    | none => exact .none
    | some k =>
      refine .some ?_
      cases k with
      | code body => exact .code (h c body hc)
      | _ => exact .literal nofun
  closed := fun _ _ _ _ _ _ _ _ ↦ trivial
  inline := rfl
  maxConstants := rfl
  recordLines := rfl

/-- **The image does not depend on the names of labels and locals.** If a program compiles, then it
compiles to the same image with its bodies renamed, each in its own way. -/
theorem compile_rename {program : Program} {config : Config} {image : Image}
    {names : ConstIndex → Naming}
    (hnames : ∀ c body, program.get? c = some (.code body) → (names c).Suits body)
    (h : compile program config = .ok image) :
    compile (program.rename names) config = .ok image := by
  have hextend : ∀ c, ∃ label : Label → Label, ∀ body, program.get? c = some (.code body) →
      body.Renamed id { names c with label := label } (body.rename (names c)) := by
    intro c
    by_cases hc : ∃ body, program.get? c = some (.code body)
    · obtain ⟨body, hbody⟩ := hc
      obtain ⟨label, hrenamed⟩ := (hnames c body hbody).exists_renamed
      refine ⟨label, fun body' hbody' ↦ ?_⟩
      obtain rfl := Constant.code.inj (Option.some.inj (hbody.symm.trans hbody'))
      exact hrenamed
    · -- a constant that is no body has no labels
      exact ⟨id, fun body hbody ↦ absurd ⟨body, hbody⟩ hc⟩
  choose label hlabel using hextend
  exact (compile_mirrors (Program.rename_mirrors hlabel config)).eq_ok rfl h

/-- Names for the pair: the entry swaps its two labels and spreads its locals, and the other body
counts from elsewhere. -/
def Naming.swapped : ConstIndex → Naming
  | 0 => { label := (11 - ·), loc := (2 * · + 1) }
  | c => { label := (· + c), loc := (· + c) }

/-- The pair compiles to the same image, with three entries in its pool, when the labels `4` and `7`
of its entry are swapped and the label `4` of the other body, which is a label of its own, is turned
into `7`. -/
theorem compile_rename_pair :
    (∀ c body, Program.pair.get? c = some (.code body) → (Naming.swapped c).Suits body) ∧
      ∃ image, compile Program.pair {} = .ok image ∧
        compile (Program.pair.rename Naming.swapped) {} = .ok image ∧ image.pool.size = 3 := by
  have hsuits : ∀ c body, Program.pair.get? c = some (.code body) →
      (Naming.swapped c).Suits body := by
    intro c body hc
    match c, hc with
    | 0, hc =>
      obtain rfl := Constant.code.inj (Option.some.inj hc)
      have hle : ∀ i ∈ Body.looping.code.toList,
          (∀ l ∈ i.binds?, l ≤ 11) ∧ ∀ l ∈ i.target?, l ≤ 11 := by decide
      refine ⟨?_, fun m _ n _ hmn ↦ ?_⟩
      · rintro (l : Nat) ⟨i, hi, hl⟩ (m : Nat) ⟨j, hj, hm⟩ (heq : 11 - l = 11 - m)
        have hl' : l ≤ 11 := hl.elim ((hle i hi).1 l) ((hle i hi).2 l)
        have hm' : m ≤ 11 := hm.elim ((hle j hj).1 m) ((hle j hj).2 m)
        show l = m
        omega
      · show 2 * m + 1 < 2 * n + 1
        omega
    | c + 1, _ =>
      exact ⟨fun l _ m _ heq ↦ Nat.add_right_cancel heq,
        fun m _ n _ hmn ↦ Nat.add_lt_add_right hmn _⟩
  have heval : (compile Program.pair {}).map (·.pool.size) = .ok 3 := by decide +kernel
  obtain ⟨image, himage, hsize⟩ := exists_of_map_eq_ok heval
  exact ⟨hsuits, image, himage, compile_rename hsuits himage, hsize⟩

end RegisterBytecode
