import Mathlib.Data.List.Pairwise
import RegisterBytecode.Alloc.Liveness
import RegisterBytecode.Proofs.Alloc.Keyed
import RegisterBytecode.Proofs.Alloc.Widening

/-!
# What a live span covers

The live spans of a body are computed in two passes over its instructions and a closure. This
module states what each of the three gives, in terms of positions alone:

* the span of a local before widening runs from its first to its last mention
  (`Body.getElem?_mentionSpans`), because mentions are met in ascending order of position;
* a label is found at the position that binds it last (`Body.getElem?_labelPositions`), so every
  backward jump to a label bound once contributes its region (`Body.loop_mem_loops`);
* the span after widening covers every mention (`Body.exists_liveSpan`) and is closed under
  those regions (`Body.closed_liveSpan`).
-/

namespace RegisterBytecode

/-- The span from the first to the last of a list of positions, if there are any. -/
def Span.ofPositions : List Nat → Option Span
  | [] => none
  | p :: ps => some ⟨p, (p :: ps).getLast (List.cons_ne_nil p ps)⟩

/-- The span of ascending positions covers each of them. -/
theorem Span.exists_ofPositions {ps : List Nat} (hs : ps.Pairwise (· ≤ ·)) {p : Nat}
    (hp : p ∈ ps) : ∃ s, Span.ofPositions ps = some s ∧ s.Covers p := by
  cases ps with
  | nil => cases hp
  | cons q qs =>
    refine ⟨_, rfl, ?_, hs.rel_getLast hp⟩
    rcases List.mem_cons.1 hp with rfl | hp
    · exact Nat.le_refl _
    · exact (List.pairwise_cons.1 hs).1 p hp

namespace Body

/-- The instruction at position `p` mentions register `r`. -/
def MentionsAt (b : Body) (p : Nat) (r : Reg) : Prop :=
  ∃ i, b.code[p]? = some i ∧ r ∈ i.regs

/-- The instruction at position `p` binds label `l`. -/
def BindsAt (b : Body) (p : Nat) (l : Label) : Prop := b.code[p]? = some (.label l)

instance (b : Body) (p : Nat) (l : Label) : Decidable (b.BindsAt p l) :=
  inferInstanceAs (Decidable (_ = _))

/-- Every label is bound at most once. -/
def UniqueLabels (b : Body) : Prop :=
  ∀ ⦃p q : Nat⦄ ⦃l : Label⦄, b.BindsAt p l → b.BindsAt q l → p = q

theorem mem_positioned {b : Body} {i : Instr} {p : Nat} :
    (i, p) ∈ b.positioned ↔ b.code[p]? = some i := by
  rw [positioned, List.mk_mem_zipIdx_iff_getElem?, Array.getElem?_toList]

/-- Positions ascend. -/
theorem pairwise_positioned (b : Body) : b.positioned.Pairwise fun x y ↦ x.2 < y.2 := by
  have h : (b.positioned.map Prod.snd).Pairwise (· < ·) := by
    rw [positioned, List.zipIdx_map_snd]
    exact List.pairwise_lt_range'
  exact List.pairwise_map.1 h

/-! ### Mentions -/

/-- The positions at which a local that needs a register is mentioned, in order. -/
def positionsOf (b : Body) (n : Nat) : List Nat :=
  (b.mentions.filter (·.1 == n)).map Prod.snd

/-- The mentions of a body are those of locals that need a register. -/
theorem mem_mentions {b : Body} {n p : Nat} :
    (n, p) ∈ b.mentions ↔ b.MentionsAt p (.loc n) ∧ b.needsRegister (.loc n) = true := by
  simp only [mentions, List.mem_flatMap, List.mem_filterMap, List.mem_filter,
    Option.map_eq_some_iff, Prod.exists, MentionsAt]
  constructor
  · rintro ⟨i, q, hi, r, ⟨hr, hn⟩, m, hm, heq⟩
    obtain ⟨rfl, rfl⟩ := Prod.mk.inj heq
    cases r with
    | loc k =>
      obtain rfl : k = m := Option.some.inj hm
      exact ⟨⟨i, mem_positioned.1 hi, hr⟩, hn⟩
    | upval k => cases hm
  · rintro ⟨⟨i, hi, hr⟩, hn⟩
    exact ⟨i, p, mem_positioned.2 hi, .loc n, ⟨hr, hn⟩, n, rfl, rfl⟩

/-- Mentions are listed in order of position. -/
theorem pairwise_mentions (b : Body) : b.mentions.Pairwise fun x y ↦ x.2 ≤ y.2 := by
  -- within one instruction all positions agree, and between two they ascend
  have hpos : ∀ {i : Instr} {p : Nat} {x : Nat × Nat},
      (x ∈ (i.regs.filter b.needsRegister).filterMap fun r ↦ r.loc?.map fun n ↦ (n, p)) →
        x.2 = p := by
    intro i p x hx
    obtain ⟨r, -, hr⟩ := List.mem_filterMap.1 hx
    obtain ⟨n, -, rfl⟩ := Option.map_eq_some_iff.1 hr
    rfl
  rw [mentions, List.pairwise_flatMap]
  refine ⟨fun x _ ↦ ?_, b.pairwise_positioned.imp fun {x y} hlt u hu v hv ↦ ?_⟩
  · refine List.pairwise_of_forall_mem_list fun u hu v hv ↦ ?_
    exact Nat.le_of_eq ((hpos hu).trans (hpos hv).symm)
  · rw [hpos hu, hpos hv]
    exact Nat.le_of_lt hlt

theorem pairwise_positionsOf (b : Body) (n : Nat) : (b.positionsOf n).Pairwise (· ≤ ·) :=
  List.pairwise_map.2 (b.pairwise_mentions.filter _)

theorem mem_positionsOf {b : Body} {n p : Nat} :
    p ∈ b.positionsOf n ↔ b.MentionsAt p (.loc n) ∧ b.needsRegister (.loc n) = true := by
  rw [← mem_mentions]
  simp [positionsOf]

/-- Mentions of other locals leave a span alone; those of its own local set its stop. -/
theorem getElem?_touch (spans : Std.TreeMap Nat Span) (x : Nat × Nat) (n : Nat) :
    (touch spans x)[n]? =
      if x.1 = n then
        some ((spans[n]?).elim ⟨x.2, x.2⟩ fun s ↦ { s with stop := x.2 })
      else spans[n]? := by
  obtain ⟨m, p⟩ := x
  rw [touch, Std.TreeMap.getElem?_alter]
  simp only [Nat.compare_eq_eq]
  split
  · next h =>
    subst h
    cases spans[m]? <;> rfl
  · rfl

/-- The fold over the mentions, for one local, in terms of the positions of that local. -/
theorem getElem?_foldl_touch (l : List (Nat × Nat)) (spans : Std.TreeMap Nat Span) (n : Nat) :
    (l.foldl touch spans)[n]? =
      match (l.filter (·.1 == n)).map Prod.snd, spans[n]? with
      | [], o => o
      | ps, none => Span.ofPositions ps
      | p :: ps, some s => some { s with stop := (p :: ps).getLast (List.cons_ne_nil p ps) } := by
  induction l generalizing spans with
  | nil => rfl
  | cons x l ih =>
    rw [List.foldl_cons, ih, getElem?_touch]
    by_cases hx : x.1 = n
    · rw [if_pos hx, List.filter_cons_of_pos (by simpa using hx), List.map_cons]
      cases (l.filter (·.1 == n)).map Prod.snd with
      | nil => cases spans[n]? <;> rfl
      | cons p ps => cases spans[n]? <;> rfl
    · rw [if_neg hx, List.filter_cons_of_neg (by simpa using hx)]

/-- **Before widening**, the span of a local runs from its first to its last mention. -/
theorem getElem?_mentionSpans (b : Body) (n : Nat) :
    b.mentionSpans[n]? = Span.ofPositions (b.positionsOf n) := by
  rw [mentionSpans, getElem?_foldl_touch, positionsOf]
  cases (b.mentions.filter (·.1 == n)).map Prod.snd <;> rfl

/-! ### Labels and loops -/

/-- The positions at which a label is bound, in order. -/
def bindingsOf (b : Body) (l : Label) : List Nat :=
  (b.positioned.filter fun x ↦ x.1.binds? == some l).map Prod.snd

theorem binds?_eq_some_iff {i : Instr} {l : Label} : i.binds? = some l ↔ i = .label l := by
  cases i <;> simp [Instr.binds?]

theorem mem_bindingsOf {b : Body} {l : Label} {p : Nat} :
    p ∈ b.bindingsOf l ↔ b.BindsAt p l := by
  simp only [bindingsOf, List.mem_map, List.mem_filter, beq_iff_eq, binds?_eq_some_iff,
    Prod.exists, BindsAt]
  constructor
  · rintro ⟨i, q, ⟨hi, rfl⟩, rfl⟩
    exact mem_positioned.1 hi
  · intro h
    exact ⟨_, p, ⟨mem_positioned.2 h, rfl⟩, rfl⟩

/-- The labels that a body binds, in order. -/
def labels (b : Body) : List Label := b.code.toList.filterMap Instr.binds?

/-- Labels are bound at most once exactly when none is repeated in the list of labels. -/
theorem uniqueLabels_iff_nodup {b : Body} : b.UniqueLabels ↔ b.labels.Nodup := by
  rw [labels, List.Nodup, List.pairwise_filterMap, List.pairwise_iff_getElem]
  simp only [binds?_eq_some_iff, UniqueLabels, BindsAt, Array.getElem?_eq_some_iff,
    Array.getElem_toList, Array.length_toList]
  constructor
  · rintro h p q hp hq hpq l hl m hm rfl
    exact absurd (h ⟨hp, hl⟩ ⟨hq, hm⟩) (Nat.ne_of_lt hpq)
  · rintro h p q l ⟨hp, hl⟩ ⟨hq, hm⟩
    rcases Nat.lt_trichotomy p q with hpq | hpq | hpq
    · exact absurd rfl (h p q hp hq hpq l hl l hm)
    · exact hpq
    · exact absurd rfl (h q p hq hp hpq l hm l hl)

instance (b : Body) : Decidable b.UniqueLabels :=
  decidable_of_iff b.labels.Nodup uniqueLabels_iff_nodup.symm

/-- **A label is found at the position that binds it last.** -/
theorem getElem?_labelPositions (b : Body) (l : Label) :
    b.labelPositions[l]? = (b.bindingsOf l).getLast? := by
  have hfold : b.labelPositions =
      b.positioned.foldl (insertKeyed (fun x ↦ x.1.binds?) Prod.snd) ∅ := rfl
  rw [hfold, getElem?_foldl_insertKeyed, Std.TreeMap.getElem?_emptyc, Option.or_none, bindingsOf,
    List.getLast?_map]

/-- A label that is bound once is found where it is bound. -/
theorem UniqueLabels.getElem?_labelPositions {b : Body} (hu : b.UniqueLabels) {p : Nat}
    {l : Label} (h : b.BindsAt p l) : b.labelPositions[l]? = some p := by
  have hne : b.bindingsOf l ≠ [] := List.ne_nil_of_mem (mem_bindingsOf.2 h)
  have hlast := mem_bindingsOf.1 (List.getLast_mem hne)
  rw [Body.getElem?_labelPositions, List.getLast?_eq_some_getLast hne, hu hlast h]

/-- Every backward jump to a label that is bound once contributes its region. -/
theorem loop_mem_loops {b : Body} (hu : b.UniqueLabels) {p q : Nat} {i : Instr} {l : Label}
    (hi : b.code[p]? = some i) (ht : i.target? = some l) (hb : b.BindsAt q l) (hqp : q ≤ p) :
    (⟨q, p⟩ : Span) ∈ b.loops := by
  rw [loops, List.mem_filterMap]
  refine ⟨(i, p), mem_positioned.2 hi, ?_⟩
  simp only [ht, hu.getElem?_labelPositions hb, if_pos hqp]

/-! ### Live spans -/

/-- A live span is the span of mentions, widened by the loops. -/
theorem getElem?_liveSpans (b : Body) (n : Nat) :
    b.liveSpans[n]? = (b.mentionSpans[n]?).map (Span.widen (b.loops ++ b.loops.reverse)) := by
  rw [liveSpans, Std.TreeMap.getElem?_map]

/-- **A live span covers every mention of its local.** -/
theorem exists_liveSpan {b : Body} {p n : Nat} (hp : b.MentionsAt p (.loc n))
    (hn : b.needsRegister (.loc n) = true) : ∃ s, b.liveSpans[n]? = some s ∧ s.Covers p := by
  obtain ⟨s, hs, hc⟩ :=
    Span.exists_ofPositions (b.pairwise_positionsOf n) (mem_positionsOf.2 ⟨hp, hn⟩)
  refine ⟨s.widen (b.loops ++ b.loops.reverse), ?_, hc.mono (Span.within_widen _ s)⟩
  rw [getElem?_liveSpans, getElem?_mentionSpans, hs, Option.map_some]

/-- A live span is not empty. -/
theorem liveSpan_start_le_stop {b : Body} {n : Nat} {s : Span} (h : b.liveSpans[n]? = some s) :
    s.start ≤ s.stop := by
  rw [getElem?_liveSpans, getElem?_mentionSpans] at h
  obtain ⟨m, hm, rfl⟩ := Option.map_eq_some_iff.1 h
  cases hps : b.positionsOf n with
  | nil =>
    rw [hps] at hm
    cases hm
  | cons p ps =>
    have hp : p ∈ b.positionsOf n := hps ▸ List.mem_cons_self
    obtain ⟨s, hs, hc⟩ := Span.exists_ofPositions (b.pairwise_positionsOf n) hp
    obtain rfl : s = m := Option.some.inj (hs.symm.trans hm)
    have hw := hc.mono (Span.within_widen (b.loops ++ b.loops.reverse) s)
    exact Nat.le_trans hw.1 hw.2

/-- **A live span contains every loop that it overlaps.** -/
theorem closed_liveSpan {b : Body} {n : Nat} {s : Span} (h : b.liveSpans[n]? = some s) :
    s.Closed b.loops := by
  rw [getElem?_liveSpans] at h
  obtain ⟨m, -, rfl⟩ := Option.map_eq_some_iff.1 h
  intro r hr
  exact Span.closed_widen _ m r (List.mem_append_left _ hr)

end Body

end RegisterBytecode
