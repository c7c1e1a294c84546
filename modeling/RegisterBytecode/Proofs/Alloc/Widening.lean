import RegisterBytecode.Alloc.Span

/-!
# Widened spans are closed

`Span.widen` stops when one more round over the regions adds nothing. A round never shrinks a
span at any of its steps, so a round that adds nothing as a whole adds nothing at each step: the
result contains **every** region that it overlaps (`Span.closed_widen`), not only those that
were met last. Together with `Span.within_widen` this is all that the analysis of paths needs.
-/

namespace RegisterBytecode.Span

/-- A span covers a position. -/
def Covers (s : Span) (p : Nat) : Prop := s.start ≤ p ∧ p ≤ s.stop

/-- One span lies within another. -/
def Within (s t : Span) : Prop := t.start ≤ s.start ∧ s.stop ≤ t.stop

/-- A span is closed under regions when it contains each one that it overlaps. -/
def Closed (regions : List Span) (s : Span) : Prop :=
  ∀ r ∈ regions, s.overlaps r = true → r.Within s

theorem Within.refl (s : Span) : s.Within s :=
  ⟨Nat.le_refl _, Nat.le_refl _⟩

theorem Within.trans {s t u : Span} (h : s.Within t) (h' : t.Within u) : s.Within u :=
  ⟨Nat.le_trans h'.1 h.1, Nat.le_trans h.2 h'.2⟩

theorem Within.antisymm {s t : Span} (h : s.Within t) (h' : t.Within s) : s = t := by
  obtain ⟨a, b⟩ := s
  obtain ⟨c, d⟩ := t
  obtain ⟨h₁, h₂⟩ := h
  obtain ⟨h₃, h₄⟩ := h'
  obtain rfl : a = c := Nat.le_antisymm h₃ h₁
  obtain rfl : b = d := Nat.le_antisymm h₂ h₄
  rfl

theorem Covers.mono {s t : Span} {p : Nat} (h : s.Covers p) (hst : s.Within t) : t.Covers p :=
  ⟨Nat.le_trans hst.1 h.1, Nat.le_trans h.2 hst.2⟩

/-- Spans overlap exactly if neither ends before the other starts. -/
theorem overlaps_iff {s t : Span} :
    s.overlaps t = true ↔ s.start ≤ t.stop ∧ t.start ≤ s.stop := by
  simp [overlaps]

/-- Two spans that cover one position overlap. -/
theorem overlaps_of_covers {s t : Span} {p : Nat} (hs : s.Covers p) (ht : t.Covers p) :
    s.overlaps t = true :=
  overlaps_iff.2 ⟨Nat.le_trans hs.1 ht.2, Nat.le_trans ht.1 hs.2⟩

/-! ### One round over the regions -/

theorem within_absorb (s r : Span) : s.Within (s.absorb r) :=
  ⟨absorb_start_le s r, le_absorb_stop s r⟩

/-- Absorbing only widens a span. -/
theorem within_absorbAll (regions : List Span) (s : Span) : s.Within (s.absorbAll regions) :=
  ⟨absorbAll_start_le regions s, le_absorbAll_stop regions s⟩

/-- A region that is absorbed without effect was contained already, if it was overlapped. -/
theorem within_of_absorb_eq {s r : Span} (h : s.absorb r = s) (ho : s.overlaps r = true) :
    r.Within s := by
  rw [absorb, if_pos ho] at h
  have hstart : min s.start r.start = s.start := congrArg Span.start h
  have hstop : max s.stop r.stop = s.stop := congrArg Span.stop h
  constructor <;> omega

/-- **A round without effect is closed.** The first step of the round lies between the span and
the result of the whole round, so it has no effect either, and the rest is a shorter round. -/
theorem closed_of_absorbAll_eq {regions : List Span} {s : Span}
    (h : s.absorbAll regions = s) : s.Closed regions := by
  induction regions with
  | nil =>
    intro r hr
    cases hr
  | cons x xs ih =>
    have hround : (s.absorb x).absorbAll xs = s := h
    have hfirst : s.absorb x = s := by
      have hle := within_absorbAll xs (s.absorb x)
      rw [hround] at hle
      exact hle.antisymm (within_absorb s x)
    have hrest : s.absorbAll xs = s := by rwa [hfirst] at hround
    intro r hr ho
    rcases List.mem_cons.1 hr with rfl | hr
    · exact within_of_absorb_eq hfirst ho
    · exact ih hrest r hr ho

/-! ### All rounds -/

theorem within_widen (regions : List Span) (s : Span) : s.Within (s.widen regions) := by
  fun_induction widen regions s with
  | case1 s grown h => exact Within.refl s
  | case2 s grown h ih => exact (within_absorbAll regions s).trans ih

/-- **The widened span contains every region that it overlaps.** -/
theorem closed_widen (regions : List Span) (s : Span) : (s.widen regions).Closed regions := by
  fun_induction widen regions s with
  | case1 s grown h => exact closed_of_absorbAll_eq h
  | case2 s grown h ih => exact ih

end RegisterBytecode.Span
