/-!
# Spans of positions

A span is an inclusive range of instruction positions. `Span.widen` grows a span until it
contains every region of a list that it overlaps. Growing never passes the last position of a
region, which is why it ends.
-/

namespace RegisterBytecode

/-- An inclusive range of instruction positions. -/
structure Span where
  start : Nat
  stop : Nat
  deriving DecidableEq, Repr, Inhabited

namespace Span

/-- Whether two spans share a position. -/
def overlaps (a b : Span) : Bool := a.start ≤ b.stop && b.start ≤ a.stop

/-- The smallest span that contains both. -/
def hull (a b : Span) : Span := ⟨min a.start b.start, max a.stop b.stop⟩

/-- Grow over a region if it is overlapped. -/
def absorb (s region : Span) : Span := if s.overlaps region then s.hull region else s

/-- Grow over each region in turn. -/
def absorbAll (regions : List Span) (s : Span) : Span := regions.foldl absorb s

/-- The last position of any region. -/
def lastStop (regions : List Span) : Nat := regions.foldl (fun n r ↦ max n r.stop) 0

theorem le_lastStop_foldl (regions : List Span) (n : Nat) :
    n ≤ regions.foldl (fun n r ↦ max n r.stop) n := by
  induction regions generalizing n with
  | nil => exact Nat.le_refl n
  | cons r rs ih => exact Nat.le_trans (Nat.le_max_left n r.stop) (ih _)

theorem stop_le_lastStop_foldl {regions : List Span} {r : Span} (h : r ∈ regions) (n : Nat) :
    r.stop ≤ regions.foldl (fun n r ↦ max n r.stop) n := by
  induction regions generalizing n with
  | nil => cases h
  | cons x xs ih =>
    cases h with
    | head => exact Nat.le_trans (Nat.le_max_right n r.stop) (le_lastStop_foldl xs _)
    | tail _ h => exact ih h _

/-- No region ends after the last stop. -/
theorem stop_le_lastStop {regions : List Span} {r : Span} (h : r ∈ regions) :
    r.stop ≤ lastStop regions :=
  stop_le_lastStop_foldl h 0

theorem absorb_start_le (s r : Span) : (s.absorb r).start ≤ s.start := by
  unfold absorb hull
  split
  · exact Nat.min_le_left _ _
  · exact Nat.le_refl _

theorem le_absorb_stop (s r : Span) : s.stop ≤ (s.absorb r).stop := by
  unfold absorb hull
  split
  · exact Nat.le_max_left _ _
  · exact Nat.le_refl _

theorem absorb_stop_le {s r : Span} {n : Nat} (hs : s.stop ≤ n) (hr : r.stop ≤ n) :
    (s.absorb r).stop ≤ n := by
  unfold absorb hull
  split
  · exact Nat.max_le.2 ⟨hs, hr⟩
  · exact hs

theorem absorbAll_start_le (regions : List Span) (s : Span) :
    (s.absorbAll regions).start ≤ s.start := by
  induction regions generalizing s with
  | nil => exact Nat.le_refl _
  | cons r rs ih => exact Nat.le_trans (ih (s.absorb r)) (absorb_start_le s r)

theorem le_absorbAll_stop (regions : List Span) (s : Span) :
    s.stop ≤ (s.absorbAll regions).stop := by
  induction regions generalizing s with
  | nil => exact Nat.le_refl _
  | cons r rs ih => exact Nat.le_trans (le_absorb_stop s r) (ih (s.absorb r))

/-- An end that lies behind the span and all regions lies behind all that is absorbed. -/
theorem absorbAll_stop_le {regions : List Span} {s : Span} {n : Nat} (hs : s.stop ≤ n)
    (hr : ∀ r ∈ regions, r.stop ≤ n) : (s.absorbAll regions).stop ≤ n := by
  induction regions generalizing s with
  | nil => exact hs
  | cons r rs ih =>
    exact ih (absorb_stop_le hs (hr r List.mem_cons_self))
      fun x hx ↦ hr x (List.mem_cons_of_mem _ hx)

/-- How far a span can still grow: to the left down to `0`, to the right up to the last stop. -/
def room (regions : List Span) (s : Span) : Nat := s.start + (lastStop regions - s.stop)

/-- A span that grows uses up room. -/
theorem room_absorbAll_lt {regions : List Span} {s : Span} (h : s.absorbAll regions ≠ s) :
    room regions (s.absorbAll regions) < room regions s := by
  have h₁ := absorbAll_start_le regions s
  have h₂ := le_absorbAll_stop regions s
  have h₃ : (s.absorbAll regions).stop ≤ max s.stop (lastStop regions) :=
    absorbAll_stop_le (Nat.le_max_left _ _) fun r hr ↦
      Nat.le_trans (stop_le_lastStop hr) (Nat.le_max_right _ _)
  have h₄ : ¬((s.absorbAll regions).start = s.start ∧ (s.absorbAll regions).stop = s.stop) := by
    rintro ⟨hstart, hstop⟩
    apply h
    cases hs : s.absorbAll regions
    cases s
    simp_all
  unfold room
  omega

/-- Grow until every overlapped region is contained. -/
def widen (regions : List Span) (s : Span) : Span :=
  let grown := s.absorbAll regions
  if grown = s then s else widen regions grown
termination_by room regions s
decreasing_by exact room_absorbAll_lt ‹_›

end Span

end RegisterBytecode
