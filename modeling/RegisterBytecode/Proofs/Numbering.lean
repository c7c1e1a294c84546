import RegisterBytecode.Proofs.Session.Mirror

/-!
# The numbering of constants does not matter

Constants are compiled in the order in which they are first asked for, so the place of a constant in
the table should leave no trace in the image, nor should constants that no one asks for. A program
is compared with any other one that has its constants, references included, at other indices
(`Program.Renumbered`); the other table may be longer and in any order.

The two compilations mirror each other, with names and lines as they are
(`Program.Renumbered.mirrors`). This needs that **every reference has an image**: a program that
refers to a constant it does not hold may refer to one that the other program does hold.
-/

namespace RegisterBytecode

/-- A constant with other indices of constants in its body. -/
def Constant.renumber (ρ : ConstIndex → ConstIndex) : Constant → Constant
  | code body => code { body with code := body.code.map (Instr.renumber ρ) }
  | c => c

/-- Every constant to which a body refers is in the table. -/
def Program.Closed (p : Program) : Prop :=
  ∀ (c : ConstIndex) (body : Body), p.get? c = some (.code body) →
    ∀ i ∈ body.code.toList, ∀ d ∈ i.constant?, d < p.constants.size

/-- The program `q` has the constants of `p` at the indices that `ρ` gives them, and may have more
than these. -/
structure Program.Renumbered (ρ : ConstIndex → ConstIndex) (p q : Program) : Prop where
  injOn : Set.InjOn ρ {c | c < p.constants.size}
  entry : q.entry = ρ p.entry
  get? : ∀ (c : ConstIndex) (k : Constant), p.get? c = some k → q.get? (ρ c) = some (k.renumber ρ)

theorem Constant.renamed_renumber (ρ : ConstIndex → ConstIndex) (k : Constant) :
    k.Renamed ρ {} (k.renumber ρ) := by
  cases k with
  | code body => exact .code (body.renamed_renumber ρ)
  | _ => exact .literal nofun

/-! ### The mirror -/

/-- The constants of a table, at other indices. -/
def Mirror.renumbering (p : Program) (ρ : ConstIndex → ConstIndex) : Mirror where
  known := {c | c < p.constants.size}
  index := ρ

/-- A closed program and one that has its constants elsewhere mirror each other on the constants of
the first. -/
theorem Program.Renumbered.mirrors {ρ : ConstIndex → ConstIndex} {p q : Program}
    (h : p.Renumbered ρ q) (hp : p.Closed) (hentry : p.entry < p.constants.size)
    (config : Config) :
    (Job.new p config).Mirrors (.renumbering p ρ) (Job.new q config) where
  entry := h.entry
  entry_mem := hentry
  injOn := h.injOn
  get? := by
    intro c hc
    have hget : p.get? c = some p.constants[c] := Array.getElem?_eq_getElem hc
    show Option.Rel _ (p.get? c) (q.get? (ρ c))
    rw [hget, h.get? c _ hget]
    exact .some (Constant.renamed_renumber ρ _)
  closed := fun c _ ↦ hp c
  inline := rfl
  maxConstants := rfl
  recordLines := rfl

/-- Without an entry body there is nothing to compile. -/
theorem compile_eq_entryNotCode {p : Program} (config : Config)
    (h : p.constants.size ≤ p.entry) :
    compile p config = .error (.error ⟨.entryNotCode p.entry, none⟩) := by
  have hget : (Job.new p config).program.get? (Job.new p config).program.entry = none :=
    Array.getElem?_eq_none h
  have hrun : (Session.start (Job.new p config)).run (Job.new p config) =
      .failed ⟨.entryNotCode p.entry, none⟩ (Session.start (Job.new p config)) := by
    rw [Session.run, hget]
    rfl
  rw [compile, hrun]
  rfl

/-- **The image does not depend on the numbering of constants.** If every reference of a program is
in its table, then a program that has its constants at other indices compiles to the same image, or
runs into the same error at the same line, unless the error is that there is no entry body. -/
theorem compile_renumbered {ρ : ConstIndex → ConstIndex} {p q : Program} (hp : p.Closed)
    (h : p.Renumbered ρ q) (config : Config) :
    (∀ image, compile p config = .ok image → compile q config = .ok image) ∧
      ∀ e, compile p config = .error (.error e) → (∀ index, e.kind ≠ .entryNotCode index) →
        compile q config = .error (.error e) := by
  rcases Nat.lt_or_ge p.entry p.constants.size with hentry | hentry
  · have hagrees := compile_mirrors (h.mirrors hp hentry config)
    exact ⟨fun image ↦ hagrees.eq_ok rfl, fun e ↦ hagrees.eq_error rfl⟩
  · rw [compile_eq_entryNotCode config hentry]
    refine ⟨nofun, ?_⟩
    rintro e he hkind
    obtain rfl := Stop.error.inj (Except.error.inj he)
    exact absurd rfl (hkind p.entry)

/-- The pair in reverse order, behind a constant that no one asks for. -/
def Program.reversedPair : Program where
  constants := #[.str "unused",
    .code
      { name := "inner"
        code := #[.load (.loc 0) 4, .label 4, .etcLookup (.loc 0) (.upval 0) 255, .jump 4] },
    .float 0, .int 7,
    .code
      { Body.looping with
        code := #[.load (.loc 0) 3, .load (.loc 1) 2, .closure (.loc 2) 1 [.loc 0],
          .branch (.loc 1) 7 true, .label 4, .jump 4, .label 7, .receive [] none] }]
  entry := 4

/-- The pair compiles to the same image in reverse order, with three entries in its pool, and with
two slots to the same error. -/
theorem compile_renumbered_pair :
    Program.pair.Closed ∧ Program.pair.Renumbered (4 - ·) Program.reversedPair ∧
      (∃ image, compile Program.pair {} = .ok image ∧
        compile Program.reversedPair {} = .ok image ∧ image.pool.size = 3) ∧
      compile Program.reversedPair { maxConstants := 2 } =
        .error (.error ⟨.constants 2, none⟩) := by
  have hclosed : Program.pair.Closed := by
    intro c body hc
    rcases c with _ | _ | _ | _ | c
    · obtain rfl := Constant.code.inj (Option.some.inj hc)
      decide
    · cases hc
    · cases hc
    · obtain rfl := Constant.code.inj (Option.some.inj hc)
      decide
    · cases hc
  have hnumbered : Program.pair.Renumbered (4 - ·) Program.reversedPair := by
    refine ⟨?_, rfl, fun c k hk ↦ ?_⟩
    · intro (c : Nat) (hc : c < 4) (d : Nat) (hd : d < 4) (heq : 4 - c = 4 - d)
      show c = d
      omega
    · rcases c with _ | _ | _ | _ | c
      case succ.succ.succ.succ => cases hk
      all_goals
        obtain rfl := Option.some.inj hk
        simp [Program.pair, Program.reversedPair, Program.get?, Constant.renumber, Instr.renumber,
          Body.looping]
  have heval : (compile Program.pair {}).map (·.pool.size) = .ok 3 := by decide +kernel
  obtain ⟨image, himage, hsize⟩ := exists_of_map_eq_ok heval
  have hfails : compile Program.pair { maxConstants := 2 } =
      .error (.error ⟨.constants 2, none⟩) :=
    eq_error_of_map_eq_error (g := (·.pool.size)) (by decide +kernel)
  refine ⟨hclosed, hnumbered,
    ⟨image, himage, (compile_renumbered hclosed hnumbered {}).1 image himage, hsize⟩,
    (compile_renumbered hclosed hnumbered { maxConstants := 2 }).2 _ hfails ?_⟩
  rintro index ⟨⟩

end RegisterBytecode
