import Mathlib.Logic.Function.Iterate
import Mathlib.Order.Bounds.Basic
import RegisterBytecode.Proofs.Alloc.Homes

/-!
# Live spans are the least closed spans

A live span is found by growing the span of a local's mentions over the loops that it overlaps, in
rounds, until a round changes nothing. Nothing of this procedure is visible in the result: it is the
**least** span that covers the first and the last mention and contains every loop that it overlaps
(`Span.IsLeastClosed`). The result contains those loops by `Span.closed_widen`; it is the least such
span because no step of a round leaves a span that is closed already (`Span.absorb_within`).

* As a least span it does not depend on the order in which loops are tried, nor on how often
  (`Span.widen_congr`).
* A round that changes a span swallows a loop that was not contained before
  (`Span.exists_absorbed`), so there are no more such rounds than loops
  (`Span.absorbAll_iterate`).
-/

namespace RegisterBytecode

namespace Span

instance (s t : Span) : Decidable (s.Within t) :=
  inferInstanceAs (Decidable (_ ∧ _))

/-! ### Least spans -/

theorem overlaps_mono {s t r : Span} (h : s.Within t) (ho : s.overlaps r = true) :
    t.overlaps r = true := by
  rw [overlaps_iff] at ho ⊢
  exact ⟨Nat.le_trans h.1 ho.1, Nat.le_trans ho.2 h.2⟩

/-- Growing over a region stays within a span that contains the region if it overlaps it. -/
theorem absorb_within {s t r : Span} (h : s.Within t)
    (hr : t.overlaps r = true → r.Within t) : (s.absorb r).Within t := by
  unfold absorb
  split
  · next ho =>
    have hin := hr (overlaps_mono h ho)
    exact ⟨Nat.le_min.2 ⟨h.1, hin.1⟩, Nat.max_le.2 ⟨h.2, hin.2⟩⟩
  · exact h

/-- A closed span that contains a span contains all that it absorbs. -/
theorem absorbAll_within {regions : List Span} {s t : Span} (h : s.Within t)
    (ht : t.Closed regions) : (s.absorbAll regions).Within t := by
  induction regions generalizing s with
  | nil => exact h
  | cons r rs ih =>
    refine ih (absorb_within h (ht r List.mem_cons_self)) fun x hx ↦ ?_
    exact ht x (List.mem_cons_of_mem _ hx)

/-- **The widened span lies within every closed span** that contains the span before. -/
theorem widen_within {regions : List Span} {s t : Span} (h : s.Within t)
    (ht : t.Closed regions) : (s.widen regions).Within t := by
  fun_induction widen regions s with
  | case1 s grown heq => exact h
  | case2 s grown hne ih => exact ih (absorbAll_within h ht)

/-- **Neither the order of the regions matters nor how often each is listed.** -/
theorem widen_congr {regions regions' : List Span} (h : ∀ r, r ∈ regions ↔ r ∈ regions')
    (s : Span) : s.widen regions = s.widen regions' := by
  refine Within.antisymm (widen_within (within_widen regions' s) fun r hr ↦ ?_)
    (widen_within (within_widen regions s) fun r hr ↦ ?_)
  · exact closed_widen regions' s r ((h r).1 hr)
  · exact closed_widen regions s r ((h r).2 hr)

/-! ### Rounds -/

theorem widen_of_absorbAll_eq {regions : List Span} {s : Span} (h : s.absorbAll regions = s) :
    s.widen regions = s := by
  rw [widen]
  exact if_pos h

/-- One round of absorbing is one of those that widening makes. -/
theorem widen_absorbAll (regions : List Span) (s : Span) :
    (s.absorbAll regions).widen regions = s.widen regions := by
  by_cases h : s.absorbAll regions = s
  · rw [h]
  · conv_rhs => rw [widen]
    exact (if_neg h).symm

/-- Where a round changes nothing, the rounds have reached the widened span. -/
theorem iterate_eq_widen {regions : List Span} {s : Span} {k : Nat}
    (h : absorbAll regions ((absorbAll regions)^[k] s) = (absorbAll regions)^[k] s) :
    (absorbAll regions)^[k] s = s.widen regions := by
  have hwiden : ((absorbAll regions)^[k] s).widen regions = s.widen regions := by
    clear h
    induction k with
    | zero => rfl
    | succ k ih => rw [Function.iterate_succ_apply', widen_absorbAll, ih]
  rw [← hwiden, widen_of_absorbAll_eq h]

/-- A round that changes a span swallows a region that was not contained before. -/
theorem exists_absorbed {regions : List Span} {s : Span} (h : s.absorbAll regions ≠ s) :
    ∃ r ∈ regions, ¬r.Within s ∧ r.Within (s.absorbAll regions) := by
  induction regions with
  | nil => exact absurd rfl h
  | cons x xs ih =>
    by_cases hx : s.absorb x = s
    · have heq : s.absorbAll (x :: xs) = s.absorbAll xs := by
        show (s.absorb x).absorbAll xs = s.absorbAll xs
        rw [hx]
      rw [heq] at h ⊢
      obtain ⟨r, hr, hout, hin⟩ := ih h
      exact ⟨r, List.mem_cons_of_mem _ hr, hout, hin⟩
    · have ho : s.overlaps x = true := by
        by_contra ho
        exact hx (if_neg ho)
      refine ⟨x, List.mem_cons_self, fun hin ↦ ?_, ?_⟩
      · exact hx ((absorb_within (Within.refl s) fun _ ↦ hin).antisymm (within_absorb s x))
      · have hhull : x.Within (s.absorb x) := by
          rw [absorb, if_pos ho]
          exact ⟨Nat.min_le_right _ _, Nat.le_max_right _ _⟩
        exact hhull.trans (within_absorbAll xs (s.absorb x))

/-- The regions that a span does not contain. -/
def outside (regions : List Span) (s : Span) : List Span :=
  regions.filter fun r ↦ ¬r.Within s

/-- A round that changes the span absorbs a region that was outside. -/
theorem length_outside_absorbAll_lt {regions : List Span} {s : Span}
    (h : s.absorbAll regions ≠ s) :
    (outside regions (s.absorbAll regions)).length < (outside regions s).length := by
  have hfilter : outside regions (s.absorbAll regions) =
      (outside regions s).filter fun r ↦ ¬r.Within (s.absorbAll regions) := by
    rw [outside, outside, List.filter_filter]
    refine List.filter_congr fun r _ ↦ ?_
    have hmono : r.Within s → r.Within (s.absorbAll regions) :=
      fun hr ↦ hr.trans (within_absorbAll regions s)
    by_cases hr : r.Within s <;> simp [hr, hmono]
  obtain ⟨r, hr, hout, hin⟩ := exists_absorbed h
  rw [hfilter, List.length_filter_lt_length_iff_exists]
  exact ⟨r, List.mem_filter.2 ⟨hr, by simpa using hout⟩, by simpa using hin⟩

/-- **There are no more rounds with an effect than regions** that are not contained yet. -/
theorem absorbAll_iterate {regions : List Span} {s : Span} {k : Nat}
    (hk : (outside regions s).length ≤ k) :
    absorbAll regions ((absorbAll regions)^[k] s) = (absorbAll regions)^[k] s := by
  induction k generalizing s with
  | zero =>
    by_contra h
    have hlt := length_outside_absorbAll_lt h
    exact absurd hlt (Nat.not_lt.2 (Nat.le_trans hk (Nat.zero_le _)))
  | succ k ih =>
    rw [Function.iterate_succ_apply]
    by_cases h : s.absorbAll regions = s
    · rw [h, Function.iterate_fixed h, h]
    · exact ih (Nat.le_of_lt_succ (Nat.lt_of_lt_of_le (length_outside_absorbAll_lt h) hk))

/-- The least span that covers two positions and contains every region that it overlaps. -/
structure IsLeastClosed (region : Span → Prop) (first last : Nat) (s : Span) : Prop where
  covers_first : s.Covers first
  covers_last : s.Covers last
  closed : ∀ r, region r → s.overlaps r = true → r.Within s
  least : ∀ t : Span, t.Covers first → t.Covers last →
    (∀ r, region r → t.overlaps r = true → r.Within t) → s.Within t

/-- Ascending positions end with the greatest. -/
theorem isGreatest_of_getLast? {ps : List Nat} (hs : ps.Pairwise (· ≤ ·)) {q : Nat}
    (h : ps.getLast? = some q) : IsGreatest {p | p ∈ ps} q := by
  have hne : ps ≠ [] := by
    rintro rfl
    cases h
  obtain rfl : ps.getLast hne = q :=
    Option.some.inj ((List.getLast?_eq_some_getLast hne).symm.trans h)
  exact ⟨List.getLast_mem hne, fun p hp ↦ hs.rel_getLast hp⟩

/-- The span of ascending positions runs from the least to the greatest. -/
theorem bounds_of_ofPositions {ps : List Nat} (hs : ps.Pairwise (· ≤ ·)) {s : Span}
    (h : ofPositions ps = some s) :
    IsLeast {p | p ∈ ps} s.start ∧ IsGreatest {p | p ∈ ps} s.stop := by
  cases ps with
  | nil => cases h
  | cons q qs =>
    obtain rfl := Option.some.inj h
    refine ⟨⟨List.mem_cons_self, fun p hp ↦ ?_⟩, isGreatest_of_getLast? hs ?_⟩
    · rcases List.mem_cons.1 hp with rfl | hp
      · exact Nat.le_refl _
      · exact (List.pairwise_cons.1 hs).1 p hp
    · exact List.getLast?_eq_some_getLast _

end Span

namespace Body

/-! ### Loops -/

/-- The region between a jump and the last position that binds its target, if the jump does not
lead forwards. -/
def IsLoop (b : Body) (r : Span) : Prop :=
  ∃ i l, b.code[r.stop]? = some i ∧ i.target? = some l ∧
    IsGreatest {p | b.BindsAt p l} r.start ∧ r.start ≤ r.stop

/-- Where a label is bound more than once, its last position counts. -/
theorem labelPositions_eq_some_iff {b : Body} {l : Label} {q : Nat} :
    b.labelPositions[l]? = some q ↔ IsGreatest {p | b.BindsAt p l} q := by
  have hset : {p | p ∈ b.bindingsOf l} = {p | b.BindsAt p l} := Set.ext fun p ↦ mem_bindingsOf
  have hasc : (b.bindingsOf l).Pairwise (· ≤ ·) :=
    List.pairwise_map.2 ((b.pairwise_positioned.filter _).imp Nat.le_of_lt)
  rw [getElem?_labelPositions, ← hset]
  constructor
  · exact Span.isGreatest_of_getLast? hasc
  · intro hq
    have hne : b.bindingsOf l ≠ [] := List.ne_nil_of_mem hq.1
    have hlast := List.getLast?_eq_some_getLast hne
    rw [hlast, (Span.isGreatest_of_getLast? hasc hlast).unique hq]

/-- **The loops of a body** are the regions of its jumps that do not lead forwards. -/
theorem mem_loops {b : Body} {r : Span} : r ∈ b.loops ↔ b.IsLoop r := by
  rw [loops, List.mem_filterMap]
  constructor
  · rintro ⟨⟨i, pos⟩, hi, hr⟩
    dsimp only at hr
    split at hr
    · cases hr
    · next l hl =>
      split at hr
      · cases hr
      · next start hstart =>
        split at hr
        · next hle =>
          obtain rfl := Option.some.inj hr
          exact ⟨i, l, mem_positioned.1 hi, hl, labelPositions_eq_some_iff.1 hstart, hle⟩
        · cases hr
  · rintro ⟨i, l, hi, hl, hstart, hle⟩
    refine ⟨(i, r.stop), mem_positioned.2 hi, ?_⟩
    simp only [hl, labelPositions_eq_some_iff.2 hstart, if_pos hle]

/-! ### Live spans -/

/-- One round of growing on all spans of a map. -/
def widenRound (regions : List Span) (spans : Std.TreeMap Nat Span) : Std.TreeMap Nat Span :=
  spans.map fun _ s ↦ s.absorbAll regions

/-- Rounds over all spans are rounds over each of them. -/
theorem getElem?_iterate_widenRound (regions : List Span) (spans : Std.TreeMap Nat Span)
    (k n : Nat) :
    ((widenRound regions)^[k] spans)[n]? =
      spans[n]?.map ((Span.absorbAll regions)^[k]) := by
  induction k with
  | zero => exact Option.map_id_apply.symm
  | succ k ih =>
    rw [Function.iterate_succ_apply', widenRound, Std.TreeMap.getElem?_map, ih, Option.map_map,
      Function.iterate_succ']

/-- Widening over any list of the loops gives the live spans. -/
theorem map_widen_mentionSpans {b : Body} {regions : List Span}
    (hr : ∀ r, r ∈ regions ↔ b.IsLoop r) (n : Nat) :
    b.mentionSpans[n]?.map (Span.widen regions) = b.liveSpans[n]? := by
  have hmem : ∀ r, r ∈ regions ↔ r ∈ b.loops ++ b.loops.reverse := by
    intro r
    rw [List.mem_append, List.mem_reverse, or_self, mem_loops, hr]
  rw [getElem?_liveSpans, funext (Span.widen_congr hmem)]

/-- The local of a live span is mentioned first at the start and last at the stop of the span that
is widened to it. -/
theorem exists_mentionSpan {b : Body} {n : Nat} {s : Span} (h : b.liveSpans[n]? = some s) :
    b.needsRegister (.loc n) = true ∧
      ∃ m : Span, m.widen b.loops = s ∧ IsLeast {p | b.MentionsAt p (.loc n)} m.start ∧
        IsGreatest {p | b.MentionsAt p (.loc n)} m.stop := by
  rw [← map_widen_mentionSpans (fun _ ↦ mem_loops), getElem?_mentionSpans] at h
  obtain ⟨m, hm, hwiden⟩ := Option.map_eq_some_iff.1 h
  obtain ⟨hfirst, hlast⟩ := Span.bounds_of_ofPositions (b.pairwise_positionsOf n) hm
  have hneeds := (mem_positionsOf.1 hfirst.1).2
  have hset : {p | p ∈ b.positionsOf n} = {p | b.MentionsAt p (.loc n)} :=
    Set.ext fun p ↦ mem_positionsOf.trans (and_iff_left hneeds)
  rw [hset] at hfirst hlast
  exact ⟨hneeds, m, hwiden, hfirst, hlast⟩

/-- A local has a live span if it is mentioned and not captured. -/
theorem mem_liveSpans {b : Body} {n : Nat} :
    n ∈ b.liveSpans ↔ Reg.loc n ∉ b.captured ∧ ∃ p, b.MentionsAt p (.loc n) := by
  rw [mem_iff_exists_getElem?]
  constructor
  · rintro ⟨s, hs⟩
    obtain ⟨hneeds, m, -, hfirst, -⟩ := exists_mentionSpan hs
    exact ⟨needsRegister_loc.1 hneeds, m.start, hfirst.1⟩
  · rintro ⟨hn, p, hp⟩
    obtain ⟨s, hs, -⟩ := exists_liveSpan hp (needsRegister_loc.2 hn)
    exact ⟨s, hs⟩

/-- **A live span is the least closed span** around the mentions of its local. -/
theorem isLeastClosed_liveSpan {b : Body} {n : Nat} {s : Span} (h : b.liveSpans[n]? = some s) :
    ∃ first last, IsLeast {p | b.MentionsAt p (.loc n)} first ∧
      IsGreatest {p | b.MentionsAt p (.loc n)} last ∧ s.IsLeastClosed b.IsLoop first last := by
  obtain ⟨-, m, rfl, hfirst, hlast⟩ := exists_mentionSpan h
  have hle : m.start ≤ m.stop := hfirst.2 hlast.1
  have hin := Span.within_widen b.loops m
  refine ⟨m.start, m.stop, hfirst, hlast, ?_, ?_, fun r hr ↦ ?_, fun t htfirst htlast ht ↦ ?_⟩
  · exact Span.Covers.mono ⟨Nat.le_refl _, hle⟩ hin
  · exact Span.Covers.mono ⟨hle, Nat.le_refl _⟩ hin
  · exact Span.closed_widen b.loops m r (mem_loops.2 hr)
  · exact Span.widen_within ⟨htfirst.1, htlast.2⟩ fun r hr ↦ ht r (mem_loops.1 hr)

/-- **Live spans are the least closed spans.** A local has one exactly if it is mentioned and not
captured, and then it is the least span from the first to the last mention that contains every loop
that it overlaps. Growing in rounds gives the same spans for any list of the loops, both after as
many rounds as the list is long and after any round that the next one does not change. -/
theorem liveSpans_leastClosed (b : Body) :
    (∀ n : Nat, n ∈ b.liveSpans ↔ Reg.loc n ∉ b.captured ∧ ∃ p, b.MentionsAt p (.loc n)) ∧
      (∀ (n : Nat) (s : Span), b.liveSpans[n]? = some s →
        ∃ first last, IsLeast {p | b.MentionsAt p (.loc n)} first ∧
          IsGreatest {p | b.MentionsAt p (.loc n)} last ∧ s.IsLeastClosed b.IsLoop first last) ∧
      (∀ r, r ∈ b.loops ↔ b.IsLoop r) ∧
      ∀ regions : List Span, (∀ r, r ∈ regions ↔ b.IsLoop r) →
        (∀ n : Nat, b.mentionSpans[n]?.map (Span.widen regions) = b.liveSpans[n]?) ∧
        ∀ k, (regions.length ≤ k ∨ ∀ n : Nat, ((widenRound regions)^[k + 1] b.mentionSpans)[n]? =
            ((widenRound regions)^[k] b.mentionSpans)[n]?) →
          ∀ n : Nat, ((widenRound regions)^[k] b.mentionSpans)[n]? = b.liveSpans[n]? := by
  refine ⟨fun n ↦ mem_liveSpans, fun n s ↦ isLeastClosed_liveSpan, fun r ↦ mem_loops,
    fun regions hr ↦ ⟨map_widen_mentionSpans hr, fun k hk n ↦ ?_⟩⟩
  rw [← map_widen_mentionSpans hr, getElem?_iterate_widenRound]
  cases hm : b.mentionSpans[n]? with
  | none => rfl
  | some m =>
    refine congrArg some (Span.iterate_eq_widen ?_)
    rcases hk with hk | hk
    · exact Span.absorbAll_iterate (Nat.le_trans (List.length_filter_le _ _) hk)
    · have hround := hk n
      rw [getElem?_iterate_widenRound, getElem?_iterate_widenRound, hm,
        Function.iterate_succ'] at hround
      exact Option.some.inj hround

end Body

end RegisterBytecode
