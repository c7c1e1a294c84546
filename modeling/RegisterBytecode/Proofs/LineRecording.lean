import RegisterBytecode.Proofs.Session.Mirror
import RegisterBytecode.Proofs.SourceLines

/-!
# Recording lines does not interfere

Whether lines are recorded is a choice of the configuration that should have no effect on anything
but lines. A compilation is compared with the quiet one, which is the same with lines left out, and
this is a mirror in which everything keeps its index and its name (`Program.mirrors_quiet`). Since
every compilation mirrors **the** quiet one, two compilations agree with each other
(`SameButLines`); and since the quiet one mirrors itself, nothing that it comes to has a line.
-/

namespace RegisterBytecode

/-- Two results are the same but for lines: two images with the same code and the same pool, two
errors of the same kind, or the same fault. -/
inductive SameButLines : Except Stop Image → Except Stop Image → Prop
  | image {m m' : Image} (code : m'.code = m.code) (pool : m'.pool = m.pool) :
    SameButLines (.ok m) (.ok m')
  | error {e e' : CompileError} (kind : e'.kind = e.kind) :
    SameButLines (.error (.error e)) (.error (.error e'))
  | fault (f : Fault) : SameButLines (.error (.fault f)) (.error (.fault f))

namespace SameButLines

variable {r r' r'' : Except Stop Image}

theorem symm (h : SameButLines r r') : SameButLines r' r := by
  cases h with
  | image code pool => exact .image code.symm pool.symm
  | error kind => exact .error kind.symm
  | fault f => exact .fault f

theorem trans (h : SameButLines r r') (h' : SameButLines r' r'') : SameButLines r r'' := by
  cases h with
  | image code pool =>
    cases h' with
    | image code' pool' => exact .image (code'.trans code) (pool'.trans pool)
  | error kind =>
    cases h' with
    | error kind' => exact .error (kind'.trans kind)
  | fault f => exact h'

end SameButLines

/-! ### The quiet compilation -/

/-- Everything as it is, without lines. -/
def Mirror.silent : Mirror where
  quiet := true

theorem ErrorKind.renumber_id (kind : ErrorKind) : kind.renumber id = kind := by
  cases kind <;> rfl

theorem Fault.rename_default (f : Fault) : f.rename id {} = f := by
  cases f <;> simp [Fault.rename, Reg.rename_default]

/-- With all names kept, a constant is a renaming of itself. -/
theorem Constant.renamed_refl (k : Constant) : k.Renamed id {} k := by
  cases k with
  | code body =>
    have hbody := body.renamed_renumber id
    rw [show Instr.renumber id = id from funext Instr.renumber_id, Array.map_id] at hbody
    exact .code hbody
  | _ => exact .literal nofun

/-- Any compilation mirrors the quiet one. -/
theorem Program.mirrors_quiet (p : Program) (config : Config) (b : Bool) :
    (Job.new p { config with recordLines := b }).Mirrors .silent
      (Job.new p { config with recordLines := false }) where
  entry := rfl
  entry_mem := trivial
  injOn := Function.injective_id.injOn
  get? := by
    intro c _
    show Option.Rel _ (p.get? c) (p.get? c)
    cases p.get? c with
    | none => exact .none
    | some k => exact .some k.renamed_refl
  closed := fun _ _ _ _ _ _ _ _ ↦ trivial
  inline := by
    funext k
    cases k <;> rfl
  maxConstants := rfl
  recordLines := rfl

/-- What mirrors without lines is the same but for lines. -/
theorem Mirror.Agrees.sameButLines {r r' : Except Stop Image} (h : Mirror.silent.Agrees r r') :
    SameButLines r r' := by
  cases h with
  | image m => exact .image rfl rfl
  | error e => exact .error e.kind.renumber_id
  | fault f c =>
    have hf : f.rename Mirror.silent.index (Mirror.silent.names c) = f := f.rename_default
    rw [hf]
    exact .fault f

/-- An image on the silent side of the mirror knows no line. -/
theorem Mirror.Agrees.lineAt?_eq_none {r : Except Stop Image} {m : Image}
    (h : Mirror.silent.Agrees r (.ok m)) (offset : Nat) : m.lineAt? offset = none := by
  cases h with
  | image m =>
    show LineTable.lineAt? {} offset = none
    rw [LineTable.lineAt?, LineTable.countFrom]
    rfl

/-- An error on the silent side of the mirror has no line. -/
theorem Mirror.Agrees.line_eq_none {r : Except Stop Image} {e : CompileError}
    (h : Mirror.silent.Agrees r (.error (.error e))) : e.line = none := by
  cases h with
  | error e => rfl

/-- **Recording lines does not interfere with code generation.** With lines and without, a program
compiles to the same code and the same pool, runs into an error of the same kind, or has the same
fault; and without lines, no offset of the image and no error has one. -/
theorem compile_recordLines (program : Program) (config : Config) :
    (∀ b b', SameButLines (compile program { config with recordLines := b })
        (compile program { config with recordLines := b' })) ∧
      (∀ image, compile program { config with recordLines := false } = .ok image →
        ∀ offset, image.lineAt? offset = none) ∧
      ∀ e, compile program { config with recordLines := false } = .error (.error e) →
        e.line = none := by
  have hquiet : ∀ b, Mirror.silent.Agrees (compile program { config with recordLines := b })
      (compile program { config with recordLines := false }) :=
    fun b ↦ compile_mirrors (program.mirrors_quiet config b)
  refine ⟨fun b b' ↦ (hquiet b).sameButLines.trans (hquiet b').sameButLines.symm, ?_, ?_⟩
  · intro image himage
    exact (himage ▸ hquiet false).lineAt?_eq_none
  · intro e he
    exact (he ▸ hquiet false).line_eq_none

/-- The scattered program has line `3` at its start and in the error that one slot leads to, and
without recording it has the same code and the same error without a line. -/
theorem compile_recordLines_scattered :
    (∃ loud quiet, compile Program.scattered {} = .ok loud ∧
        compile Program.scattered { recordLines := false } = .ok quiet ∧
        quiet.code = loud.code ∧ quiet.pool = loud.pool ∧
        loud.lineAt? 0 = some 3 ∧ quiet.lineAt? 0 = none) ∧
      ∃ loud quiet, compile Program.scattered { maxConstants := 1 } = .error (.error loud) ∧
        compile Program.scattered { maxConstants := 1, recordLines := false } =
          .error (.error quiet) ∧
        quiet.kind = loud.kind ∧ loud.line = some 3 ∧ quiet.line = none := by
  constructor
  · have heval : (compile Program.scattered {}).map (·.lineAt? 0) = .ok (some 3) := by
      decide +kernel
    obtain ⟨loud, hloud, hline⟩ := exists_of_map_eq_ok heval
    obtain ⟨hsame, hnone, -⟩ := compile_recordLines Program.scattered {}
    have hpair := hsame true false
    generalize hquiet : compile Program.scattered { recordLines := false } = r at hpair hnone
    rw [hloud] at hpair
    cases hpair with
    | image code pool => exact ⟨loud, _, hloud, rfl, code, pool, hline, hnone _ rfl 0⟩
  · have hloud : compile Program.scattered { maxConstants := 1 } =
        .error (.error ⟨.constants 1, some 3⟩) :=
      eq_error_of_map_eq_error (g := (·.pool.size)) (by decide +kernel)
    obtain ⟨hsame, -, hnone⟩ := compile_recordLines Program.scattered { maxConstants := 1 }
    have hpair := hsame true false
    generalize hquiet : compile Program.scattered { maxConstants := 1, recordLines := false } = r
      at hpair hnone
    rw [hloud] at hpair
    cases hpair with
    | error kind => exact ⟨_, _, hloud, rfl, kind, rfl, hnone _ rfl⟩

end RegisterBytecode
