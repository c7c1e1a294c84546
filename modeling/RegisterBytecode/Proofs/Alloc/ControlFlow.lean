import Mathlib.Data.List.Chain
import RegisterBytecode.Proofs.Alloc.Homes

/-!
# Registers along control flow

Storage is chosen from spans of positions, but a value travels along **paths**: from position to
position, by falling through or by jumping, through any number of loops. `Body.Flow` is that
graph, read off the instructions alone.

A span that is closed under the loops of a body is a trap for paths in one direction. A step from
inside it leads inside or past its end, never before its start; and a step from past its end
never leads back, because the jump that did so would be a loop overlapping the span
(`Body.Flow.start_le`, `Body.Flow.stop_lt`). A path that starts and ends inside therefore never
leaves (`Body.covers_of_isChain`). With live spans for the closed spans, this turns the
disjointness of the scan into a statement about values: between two mentions of a local, its
register is not given to any other local that is mentioned on the way.
-/

namespace RegisterBytecode.Body

/-- Control may pass from one position of a body to another. -/
inductive Flow (b : Body) : Nat → Nat → Prop where
  /-- To the next position, unless the instruction always jumps. -/
  | next {p : Nat} {i : Instr} (hi : b.code[p]? = some i) (hj : ∀ l, i ≠ .jump l) :
      Flow b p (p + 1)
  /-- To a position at which the instruction's target is bound. -/
  | jump {p q : Nat} {i : Instr} {l : Label} (hi : b.code[p]? = some i)
      (ht : i.target? = some l) (hq : b.BindsAt q l) : Flow b p q

/-- A step backwards goes around a loop. -/
theorem Flow.loop_of_le {b : Body} (hu : b.UniqueLabels) {p q : Nat} (h : b.Flow p q)
    (hqp : q ≤ p) : (⟨q, p⟩ : Span) ∈ b.loops := by
  cases h with
  | next hi hj => omega
  | jump hi ht hq => exact loop_mem_loops hu hi ht hq hqp

/-- No step leads from a closed span, or from past its end, to before its start. -/
theorem Flow.start_le {b : Body} (hu : b.UniqueLabels) {s : Span} (hs : s.Closed b.loops)
    (hne : s.start ≤ s.stop) {p q : Nat} (h : b.Flow p q) (hp : s.start ≤ p) : s.start ≤ q := by
  by_contra hlt
  -- the step would go around a loop that overlaps the span and starts before it
  have hstop : q ≤ s.stop := by omega
  have hloop := h.loop_of_le hu (by omega)
  have hin := hs _ hloop (Span.overlaps_iff.2 ⟨hp, hstop⟩)
  exact hlt hin.1

/-- No step leads from past the end of a closed span back into it. -/
theorem Flow.stop_lt {b : Body} (hu : b.UniqueLabels) {s : Span} (hs : s.Closed b.loops)
    (hne : s.start ≤ s.stop) {p q : Nat} (h : b.Flow p q) (hp : s.stop < p) : s.stop < q := by
  by_contra hle
  -- the step would go around a loop that overlaps the span and ends behind it
  have hstart : s.start ≤ p := by omega
  have hstop : q ≤ s.stop := by omega
  have hloop := h.loop_of_le hu (by omega)
  have hin := hs _ hloop (Span.overlaps_iff.2 ⟨hstart, hstop⟩)
  exact absurd hin.2 (Nat.not_le.2 hp)

/-- **A path that starts and ends in a closed span stays in it.** The start of the span bounds
the path by induction from its first position, the end by induction from its last. -/
theorem covers_of_isChain {b : Body} (hu : b.UniqueLabels) {s : Span} (hs : s.Closed b.loops)
    {path : List Nat} (hpath : path.IsChain b.Flow) (hne : path ≠ [])
    (hfirst : s.Covers (path.head hne)) (hlast : s.Covers (path.getLast hne)) {p : Nat}
    (hp : p ∈ path) : s.Covers p := by
  have hle : s.start ≤ s.stop := Nat.le_trans hfirst.1 hfirst.2
  constructor
  · exact hpath.induction (s.start ≤ ·) path (fun x y h hx ↦ h.start_le hu hs hle hx)
      (fun _ ↦ hfirst.1) p hp
  · refine hpath.backwards_induction (· ≤ s.stop) path (fun x y h hy ↦ ?_)
      (fun _ ↦ hlast.2) p hp
    by_contra hx
    exact absurd hy (Nat.not_le.2 (h.stop_lt hu hs hle (Nat.not_le.1 hx)))

/-- **No value is overwritten on the way.** On every path of the control flow that starts and
ends at a mention of a local `v`, any other local `w` that is mentioned has another register
than `v`, captured locals aside. -/
theorem registers_apart_along_path {b : Body} {f : Frame} (hu : b.UniqueLabels)
    (ha : Frame.allocate b = .ok f) {path : List Nat} (hpath : path.IsChain b.Flow)
    (hne : path ≠ []) {v w : Nat} (hv : Reg.loc v ∉ b.captured) (hw : Reg.loc w ∉ b.captured)
    (hvw : v ≠ w) (hfirst : b.MentionsAt (path.head hne) (.loc v))
    (hlast : b.MentionsAt (path.getLast hne) (.loc v)) {p : Nat} (hp : p ∈ path)
    (hmention : b.MentionsAt p (.loc w)) :
    ∃ j k : UInt16, f.operand (.loc v) = .ok (.register j) ∧
      f.operand (.loc w) = .ok (.register k) ∧ j ≠ k := by
  obtain ⟨sv, hsv, hcfirst⟩ := exists_liveSpan hfirst (needsRegister_loc.2 hv)
  obtain ⟨sv', hsv', hclast⟩ := exists_liveSpan hlast (needsRegister_loc.2 hv)
  obtain rfl : sv = sv' := Option.some.inj (hsv.symm.trans hsv')
  obtain ⟨sw, hsw, hcw⟩ := exists_liveSpan hmention (needsRegister_loc.2 hw)
  -- the path stays in the span of `v`, so the mention of `w` lies in both spans
  have hcv : sv.Covers p :=
    covers_of_isChain hu (closed_liveSpan hsv) hpath hne hcfirst hclast hp
  obtain ⟨-, -, -, n, hrun, -⟩ := Frame.allocate_eq_ok ha
  obtain ⟨j, k, hj, hk, hjk⟩ :=
    Scan.run_apart (fun _ _ ↦ liveSpan_start_le_stop) hrun hsv hsw hvw
      (Span.overlaps_of_covers hcv hcw)
  exact ⟨j, k, by rw [Frame.operand, hj], by rw [Frame.operand, hk], hjk⟩

/-- Two loops that overlap without one containing the other. The local `0` is written before both
and read where they overlap; the local `1` lives in the part that only the second loop has. -/
def crossedLoops : Body where
  code := #[.newTable (.loc 0), .label 0, .clear (.loc 0), .label 1, .branch (.loc 0) 0 false,
    .newTable (.loc 1), .clear (.loc 1), .branch (.loc 1) 1 true]

/-- The path around the second loop and back to the read of local `0`. -/
theorem registers_apart_in_crossedLoops :
    ∃ f, Frame.allocate crossedLoops = .ok f ∧ ∃ j k : UInt16,
      f.operand (.loc 0) = .ok (.register j) ∧ f.operand (.loc 1) = .ok (.register k) ∧
        j ≠ k := by
  obtain ⟨f, hf⟩ : ∃ f, Frame.allocate crossedLoops = .ok f := by
    have hok : (Frame.allocate crossedLoops).isOk = true := by decide +kernel
    cases hf : Frame.allocate crossedLoops with
    | ok f => exact ⟨f, rfl⟩
    | error e =>
      rw [hf] at hok
      cases hok
  have hpath : [0, 1, 2, 3, 4, 5, 6, 7, 3, 4].IsChain crossedLoops.Flow := by
    simp only [List.isChain_cons_cons, List.isChain_singleton, and_true]
    exact ⟨.next rfl nofun, .next rfl nofun, .next rfl nofun, .next rfl nofun, .next rfl nofun,
      .next rfl nofun, .next rfl nofun, .jump rfl rfl rfl, .next rfl nofun⟩
  exact ⟨f, hf, registers_apart_along_path (by decide) hf hpath (by simp)
    (by decide) (by decide) (by decide) ⟨_, rfl, by decide⟩ ⟨_, rfl, by decide⟩
    (p := 5) (by decide) ⟨_, rfl, by decide⟩⟩

end RegisterBytecode.Body
