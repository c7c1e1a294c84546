import Mathlib.Data.Fintype.EquivFin
import Mathlib.Order.Lattice.Nat
import RegisterBytecode.Proofs.Alloc.Renaming

/-!
# The scan is first fit

The scan keeps two ordered sets, one of the registers in use by the ends of their spans and one of
the registers released, and it looks at no span a second time. What it computes is simpler to say:
by ascending start, and by ascending local among those that start together, each local gets the
**least** number that no earlier local has whose span contains the start of its own. `FirstFit` is
that rule, without sets, without a limit and without an order of computation.

* Exactly one choice of numbers follows the rule (`exists_firstFit`, `FirstFit.unique`), because
  the rule for a local refers to earlier locals only.
* A run of the scan gives out the numbers of the rule, as far as it gets
  (`Scan.Serves.eq_of_firstFit`). One span has its least number by `Scan.Tracks.isLeast_of_serve`;
  what is left is that the spans served so far are the earlier ones (`Scan.mem_iff_before`).
-/

namespace RegisterBytecode

/-! ### The order of service -/

namespace Live

/-- One local comes before another: it starts first, or at the same position with a smaller
number. -/
def Before (l m : Live) : Prop :=
  l.span.start < m.span.start ∨ l.span.start = m.span.start ∧ l.id < m.id

theorem Before.start_le {l m : Live} (h : l.Before m) : l.span.start ≤ m.span.start := by
  rcases h with h | ⟨h, -⟩
  · exact Nat.le_of_lt h
  · exact Nat.le_of_eq h

theorem Before.asymm {l m : Live} (h : l.Before m) : ¬m.Before l := by
  rcases h with h | ⟨h, hid⟩ <;> rintro (h' | ⟨h', hid'⟩) <;> omega

/-- Of two locals with different numbers one comes before the other. -/
theorem before_or_before {l m : Live} (h : l.id ≠ m.id) : l.Before m ∨ m.Before l := by
  rcases Nat.lt_trichotomy l.span.start m.span.start with hlt | heq | hgt
  · exact Or.inl (Or.inl hlt)
  · rcases Nat.lt_or_gt_of_ne h with hid | hid
    · exact Or.inl (Or.inr ⟨heq, hid⟩)
    · exact Or.inr (Or.inr ⟨heq.symm, hid⟩)
  · exact Or.inr (Or.inl hgt)

/-- The order of the queue agrees, the stop being of no account between different locals. -/
theorem before_of_order {l m : Live} (ho : Live.order l m = .lt) (hne : l.id ≠ m.id) :
    l.Before m := by
  rcases before_or_before hne with h | h
  · exact h
  · have hgt : Live.order l m = .gt := by
      rcases h with h | ⟨h, hid⟩
      · simp [Live.order, compareLex, compareOn, Nat.compare_eq_gt.2 h]
      · simp [Live.order, compareLex, compareOn, h, Nat.compare_eq_gt.2 hid]
    rw [hgt] at ho
    cases ho

/-- Serving order descends to an end: it compares natural numbers, starts first. -/
theorem wellFounded_before : WellFounded Before := by
  refine Subrelation.wf ?_ (InvImage.wf (fun l : Live ↦ (l.span.start, l.id))
    (Nat.lt_wfRel.wf.prod_lex Nat.lt_wfRel.wf))
  intro l m h
  exact Prod.lex_def.2 h

end Live

/-! ### The rule -/

/-- **First fit.** Each local gets the least number that no local before it has whose span contains
the start of its own. -/
def FirstFit (spans : Std.TreeMap Nat Span) (slot : Nat → Nat) : Prop :=
  ∀ l : Live, spans[l.id]? = some l.span →
    IsLeast {j | ∀ m : Live, spans[m.id]? = some m.span → m.Before l →
      m.span.Covers l.span.start → slot m.id ≠ j} (slot l.id)

/-- The rule can be followed for every map of spans. -/
theorem exists_firstFit (spans : Std.TreeMap Nat Span) : ∃ slot, FirstFit spans slot := by
  -- a number is picked once those of all locals before it are known
  let pick : Live → Nat := Live.wellFounded_before.fix fun l earlier ↦
    sInf {j | ∀ m : Live, spans[m.id]? = some m.span → ∀ h : m.Before l,
      m.span.Covers l.span.start → earlier m h ≠ j}
  have hpick : ∀ l, pick l = sInf {j | ∀ m : Live, spans[m.id]? = some m.span → m.Before l →
      m.span.Covers l.span.start → pick m ≠ j} :=
    fun l ↦ Live.wellFounded_before.fix_eq _ l
  let slot (n : Nat) : Nat := pick ⟨n, spans[n]?.getD default⟩
  have hslot : ∀ m : Live, spans[m.id]? = some m.span → slot m.id = pick m := by
    intro m hm
    dsimp only [slot]
    rw [hm, Option.getD_some]
  refine ⟨slot, fun l hl ↦ ?_⟩
  have hset : {j | ∀ m : Live, spans[m.id]? = some m.span → m.Before l →
        m.span.Covers l.span.start → slot m.id ≠ j} =
      {j | ∀ m : Live, spans[m.id]? = some m.span → m.Before l →
        m.span.Covers l.span.start → pick m ≠ j} := by
    ext j
    refine forall_congr' fun m ↦ forall_congr' fun hm ↦ ?_
    rw [hslot m hm]
  -- only finitely many numbers are taken
  obtain ⟨j, hj⟩ := Infinite.exists_notMem_finset ((Scan.queue spans).map pick).toFinset
  have hfree : ∀ m : Live, spans[m.id]? = some m.span → m.Before l →
      m.span.Covers l.span.start → pick m ≠ j := by
    rintro m hm - - rfl
    exact hj (List.mem_toFinset.2 (List.mem_map_of_mem (Scan.mem_queue.2 hm)))
  rw [hset, hslot l hl, hpick l]
  exact ⟨Nat.sInf_mem ⟨j, hfree⟩, fun k hk ↦ Nat.sInf_le hk⟩

namespace FirstFit

variable {spans : Std.TreeMap Nat Span} {slot slot' : Nat → Nat}

/-- **The rule leaves no choice**: by induction along the order of service, the numbers that a
local must avoid are determined. -/
theorem unique (h : FirstFit spans slot) (h' : FirstFit spans slot') {l : Live}
    (hl : spans[l.id]? = some l.span) : slot l.id = slot' l.id := by
  induction l using Live.wellFounded_before.induction with
  | _ l ih =>
    have hset : {j | ∀ m : Live, spans[m.id]? = some m.span → m.Before l →
          m.span.Covers l.span.start → slot m.id ≠ j} =
        {j | ∀ m : Live, spans[m.id]? = some m.span → m.Before l →
          m.span.Covers l.span.start → slot' m.id ≠ j} := by
      ext j
      refine forall_congr' fun m ↦ forall_congr' fun hm ↦ forall_congr' fun hb ↦ ?_
      rw [ih m hb hm]
    have hleast := h l hl
    rw [hset] at hleast
    exact hleast.unique (h' l hl)

end FirstFit

namespace Scan

variable {spans : Std.TreeMap Nat Span}

/-! ### What the scan gives out -/

theorem pairwise_before_queue (spans : Std.TreeMap Nat Span) :
    (queue spans).Pairwise Live.Before :=
  (Std.TreeSet.ordered_toList.and (pairwise_id_queue spans)).imp fun h ↦
    Live.before_of_order h.1 h.2

/-- The locals that stand in front of a local in the queue are those before it. -/
theorem mem_iff_before {ms rest : List Live} {l m : Live} (hq : queue spans = ms ++ l :: rest) :
    m ∈ ms ↔ spans[m.id]? = some m.span ∧ m.Before l := by
  have horder := pairwise_before_queue spans
  rw [hq, List.pairwise_append] at horder
  obtain ⟨-, htail, hfront⟩ := horder
  rw [← mem_queue, hq, List.mem_append]
  constructor
  · exact fun hm ↦ ⟨Or.inl hm, hfront m hm l List.mem_cons_self⟩
  · rintro ⟨hm | hm, hb⟩
    · exact hm
    · rcases List.mem_cons.1 hm with rfl | hm
      · exact absurd hb hb.asymm
      · exact absurd hb ((List.pairwise_cons.1 htail).1 m hm).asymm

/-- Among the spans served, those that reach the start of the next one are the earlier ones that
contain it. -/
theorem forall_served_iff {xs : List (Live × Nat)} {l : Live} {rest : List Live}
    {slot : Nat → Nat} (hq : queue spans = xs.map Prod.fst ++ l :: rest)
    (hxs : ∀ x ∈ xs, x.2 = slot x.1.id) {j : Nat} :
    (∀ x ∈ xs, l.span.start ≤ x.1.span.stop → x.2 ≠ j) ↔
      ∀ m : Live, spans[m.id]? = some m.span → m.Before l → m.span.Covers l.span.start →
        slot m.id ≠ j := by
  constructor
  · intro h m hm hb hc
    obtain ⟨x, hx, rfl⟩ := List.mem_map.1 ((mem_iff_before hq).2 ⟨hm, hb⟩)
    rw [← hxs x hx]
    exact h x hx hc.2
  · intro h x hx hle
    obtain ⟨hm, hb⟩ := (mem_iff_before hq).1 (List.mem_map_of_mem hx)
    rw [hxs x hx]
    exact h x.1 hm hb ⟨hb.start_le, hle⟩

/-- A recorded run can be taken apart at its end. -/
theorem Serves.exists_of_concat {s u : Scan} {xs : List (Live × Nat)} {x : Live × Nat}
    (h : Serves s (xs ++ [x]) u) :
    ∃ t, Serves s xs t ∧ t.serve x.1.span = some (x.2, u) := by
  induction xs generalizing s with
  | nil =>
    cases h with
    | cons hserve hs =>
      cases hs
      exact ⟨s, .nil s, hserve⟩
  | cons y ys ih =>
    cases h with
    | cons hserve hs =>
      obtain ⟨t, hrun, ht⟩ := ih hs
      exact ⟨t, .cons hserve hrun, ht⟩

section Proper

variable (hs : ∀ (n : Nat) (s : Span), spans[n]? = some s → s.start ≤ s.stop)

include hs

/-- The state in front of a local describes the spans served, at a position not beyond its start. -/
theorem Serves.tracks_front {xs : List (Live × Nat)} {u : Scan} {l : Live} {rest : List Live}
    (hq : queue spans = xs.map Prod.fst ++ l :: rest) (hrun : Serves {} xs u) :
    ∃ q, u.Tracks xs q ∧ q ≤ l.span.start := by
  obtain ⟨q, ht, hle⟩ := hrun.tracks hs ⟨l :: rest, hq.symm⟩
  exact ⟨q, ht, hle _ fun x hx ↦ ((mem_iff_before hq).1 (List.mem_map_of_mem hx)).2.start_le⟩

/-- **A run gives out the numbers of the rule**, as far as it gets. -/
theorem Serves.eq_of_firstFit {slot : Nat → Nat} (hfit : FirstFit spans slot)
    {xs : List (Live × Nat)} {u : Scan} (hxs : xs.map Prod.fst <+: queue spans)
    (hrun : Serves {} xs u) : ∀ x ∈ xs, x.2 = slot x.1.id := by
  -- from the last span served: the numbers in front of it are those of the rule already
  induction xs using List.reverseRecOn generalizing u with
  | nil => nofun
  | append_singleton xs x ih =>
    obtain ⟨rest, hq⟩ := hxs
    rw [List.map_append, List.map_singleton, List.append_assoc, List.singleton_append] at hq
    obtain ⟨t, hrun, hserve⟩ := hrun.exists_of_concat
    have hfront := ih ⟨x.1 :: rest, hq⟩ hrun
    obtain ⟨q, ht, hle⟩ := hrun.tracks_front hs hq.symm
    have hx : x.2 = slot x.1.id := by
      have hleast := ht.isLeast_of_serve hle hserve
      simp only [forall_served_iff hq.symm hfront] at hleast
      have hmem : x.1 ∈ queue spans := hq ▸ List.mem_append_right _ List.mem_cons_self
      exact hleast.unique (hfit x.1 (mem_queue.1 hmem))
    intro y hy
    rcases List.mem_append.1 hy with hy | hy
    · exact hfront y hy
    · rw [List.mem_singleton.1 hy]
      exact hx

/-! ### The pass as a whole -/

/-- Every local with a span has the register that the rule gives it, and no number is cut off. -/
theorem register_of_firstFit {slot : Nat → Nat} {homes homes' : Std.TreeMap Nat Operand}
    {count : Nat} (hfit : FirstFit spans slot) (h : run spans homes = some (count, homes'))
    {n : Nat} (hn : n ∈ spans) :
    slot n < count ∧ ∃ k : UInt16, homes'[n]? = some (.register k) ∧ k.toNat = slot n := by
  obtain ⟨s, hspan⟩ := mem_iff_exists_getElem?.1 hn
  obtain ⟨xs, u, hxs, hrun, rfl, rfl⟩ := serves_of_run h
  have hprefix : xs.map Prod.fst <+: queue spans := hxs ▸ List.prefix_rfl
  obtain ⟨k, hk⟩ := exists_mem_of_getElem? hxs hspan
  obtain rfl : k = slot n := hrun.eq_of_firstFit hs hfit hprefix _ hk
  obtain ⟨q, ht, -⟩ := hrun.tracks hs hprefix
  have hlt : slot n < u.next := ht.slot_lt _ hk
  refine ⟨hlt, _, getElem?_assign_of_mem (pairwise_id_of_queue hxs) hk, ?_⟩
  exact toNat_toUInt16 (Nat.le_trans (Nat.le_of_lt hlt) ht.next_le)

/-- A register that the pass gives a local has the number of the rule. -/
theorem toNat_of_firstFit {slot : Nat → Nat} {homes homes' : Std.TreeMap Nat Operand}
    {count : Nat} (hfit : FirstFit spans slot) (h : run spans homes = some (count, homes'))
    {n : Nat} (hn : n ∈ spans) {k : UInt16} (hk : homes'[n]? = some (.register k)) :
    k.toNat = slot n := by
  obtain ⟨-, k', hk', hslot⟩ := register_of_firstFit hs hfit h hn
  rw [Operand.register.inj (Option.some.inj (hk.symm.trans hk')), hslot]

end Proper

/-- The queue depends on what is looked up, not on how the map was built. -/
theorem queue_congr {spans' : Std.TreeMap Nat Span} (h : ∀ n : Nat, spans'[n]? = spans[n]?) :
    queue spans' = queue spans := by
  refine toList_eq_of_mem_iff Std.TreeSet.ordered_toList fun l ↦ ?_
  rw [← Std.TreeSet.mem_toList]
  refine mem_queue.trans ?_
  rw [h]
  exact mem_queue.symm

/-- Another map with the same spans, and other homes to start from, give the same registers. -/
theorem run_congr {spans' : Std.TreeMap Nat Span} {homes homes' : Std.TreeMap Nat Operand}
    {count : Nat} (h : run spans homes = some (count, homes'))
    (hspans : ∀ n : Nat, spans'[n]? = spans[n]?) (others : Std.TreeMap Nat Operand) :
    ∃ others', run spans' others = some (count, others') ∧
      ∀ n ∈ spans, others'[n]? = homes'[n]? := by
  obtain ⟨xs, u, hxs, hrun, rfl, rfl⟩ := serves_of_run h
  have hpass : serveAll (queue spans') {} others = some (u, assign xs others) := by
    rw [queue_congr hspans, ← hxs]
    exact hrun.serveAll_eq others
  refine ⟨assign xs others, by rw [run, hpass], fun n hn ↦ ?_⟩
  obtain ⟨s, hspan⟩ := mem_iff_exists_getElem?.1 hn
  obtain ⟨k, hk⟩ := exists_mem_of_getElem? hxs hspan
  have hid := pairwise_id_of_queue hxs
  rw [getElem?_assign_of_mem hid hk, getElem?_assign_of_mem hid hk]

/-- **The scan is first fit.** Where it succeeds, it gives each local the register with the number
of the rule, which the spans alone determine; homes chosen before stay as they are, and nothing
else is added. -/
theorem run_firstFit {homes homes' : Std.TreeMap Nat Operand} {count : Nat}
    (hs : ∀ (n : Nat) (s : Span), spans[n]? = some s → s.start ≤ s.stop)
    (hfresh : ∀ n ∈ spans, n ∉ homes) (h : run spans homes = some (count, homes')) :
    ∃ slot : Nat → Nat, FirstFit spans slot ∧
      (∀ slot', FirstFit spans slot' → ∀ n ∈ spans, slot' n = slot n) ∧
      (∀ n ∈ spans, ∃ k : UInt16, homes'[n]? = some (.register k) ∧ k.toNat = slot n) ∧
      (∀ (n : Nat) (o : Operand), homes[n]? = some o → homes'[n]? = some o) ∧
      (∀ n : Nat, n ∉ spans → homes'[n]? = homes[n]?) ∧
      ∀ (spans' : Std.TreeMap Nat Span) (others : Std.TreeMap Nat Operand),
        (∀ n : Nat, spans'[n]? = spans[n]?) →
          ∃ others', run spans' others = some (count, others') ∧
            ∀ n ∈ spans, others'[n]? = homes'[n]? := by
  obtain ⟨slot, hfit⟩ := exists_firstFit spans
  have hkeep : ∀ n : Nat, n ∉ spans → homes'[n]? = homes[n]? := fun n hn ↦
    run_of_getElem?_eq_none hs h (Std.TreeMap.getElem?_eq_none hn)
  refine ⟨slot, hfit, fun slot' hfit' n hn ↦ ?_, fun n hn ↦ (register_of_firstFit hs hfit h hn).2,
    fun n o ho ↦ ?_, hkeep, fun spans' others hspans ↦ run_congr h hspans others⟩
  · obtain ⟨s, hspan⟩ := mem_iff_exists_getElem?.1 hn
    exact hfit'.unique hfit (l := ⟨n, s⟩) hspan
  · have hn : n ∉ spans := fun hn ↦ hfresh n hn (mem_iff_exists_getElem?.2 ⟨o, ho⟩)
    rw [hkeep n hn, ho]

/-- Spans that start together, contain each other and end where another starts. -/
def nested : Std.TreeMap Nat Span :=
  Std.TreeMap.ofList [(7, Span.mk 0 9), (3, Span.mk 0 2), (1, Span.mk 2 3), (0, Span.mk 3 4)]

theorem nested_start_le_stop (n : Nat) (s : Span) (hn : nested[n]? = some s) :
    s.start ≤ s.stop := by
  have hall : ∀ x ∈ nested.toList, x.2.start ≤ x.2.stop := by decide +kernel
  exact hall (n, s) (Std.TreeMap.mem_toList_iff_getElem?_eq_some.2 hn)

/-- Local `3` comes before local `7` and keeps register `0` up to the position at which local `1`
starts, which therefore needs a third register; local `0` gets the released one. The cell of local
`2` stays. -/
theorem run_firstFit_nested :
    ∃ homes' slot, run nested (Std.TreeMap.ofList [(2, Operand.cell 0)]) = some (3, homes') ∧
      FirstFit nested slot ∧ slot 1 = 2 ∧ slot 0 = 0 ∧ homes'[2]? = some (.cell 0) := by
  have hpass : (run nested (Std.TreeMap.ofList [(2, Operand.cell 0)])).map (fun r ↦
      (r.1, r.2[1]?, r.2[0]?)) = some (3, some (.register 2), some (.register 0)) := by
    decide +kernel
  obtain ⟨⟨count, homes'⟩, hrun, heq⟩ := Option.map_eq_some_iff.1 hpass
  obtain ⟨rfl, heq⟩ := Prod.mk.inj heq
  obtain ⟨hone, hzero⟩ := Prod.mk.inj heq
  have hfresh : ∀ n ∈ nested, n ∉ Std.TreeMap.ofList [(2, Operand.cell 0)] := by
    intro n hn hmem
    obtain rfl : 2 = n := by simpa [Std.TreeMap.mem_ofList] using hmem
    exact absurd hn (by decide +kernel)
  obtain ⟨slot, hfit, -, -, hkeep, -⟩ := run_firstFit nested_start_le_stop hfresh hrun
  have hslot : ∀ n ∈ nested, ∀ k : UInt16, homes'[n]? = some (.register k) → slot n = k.toNat :=
    fun n hn k hk ↦ (toNat_of_firstFit nested_start_le_stop hfit hrun hn hk).symm
  exact ⟨homes', slot, hrun, hfit, hslot 1 (by decide +kernel) 2 hone,
    hslot 0 (by decide +kernel) 0 hzero, hkeep 2 (.cell 0) (by decide +kernel)⟩

end Scan

end RegisterBytecode
