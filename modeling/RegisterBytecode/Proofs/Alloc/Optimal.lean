import Mathlib.Data.List.Perm.Subperm
import Mathlib.Data.Nat.SuccPred
import RegisterBytecode.Proofs.Alloc.FirstFit

/-!
# The scan needs as few registers as possible

At a position that many spans cover, their locals need as many different registers, so no choice of
registers does with fewer than the greatest **load** of a position (`KeepsApart.load_le`). First fit
needs no more: a local that gets number `j` finds all smaller numbers in the hands of other locals
that cover its start, so the load of that position exceeds `j` (`FirstFit.lt_load`).

The scan gives out the numbers of first fit, and each of the registers that it counts
(`Scan.Serves.exists_of_lt_next`). It gives up only when first fit goes beyond the limit
(`Scan.le_of_serve_eq_none`), that is, when the load does.
-/

namespace RegisterBytecode

instance (s : Span) (p : Nat) : Decidable (s.Covers p) :=
  inferInstanceAs (Decidable (_ ∧ _))

/-! ### Load -/

/-- The locals whose spans cover a position. -/
def covering (spans : Std.TreeMap Nat Span) (p : Nat) : List Nat :=
  (spans.toList.filter fun x ↦ x.2.Covers p).map Prod.fst

/-- The number of spans that cover a position. -/
def load (spans : Std.TreeMap Nat Span) (p : Nat) : Nat := (covering spans p).length

/-- Locals with overlapping spans have different numbers. -/
def KeepsApart (spans : Std.TreeMap Nat Span) (slot : Nat → Nat) : Prop :=
  ∀ l m : Live, spans[l.id]? = some l.span → spans[m.id]? = some m.span → l.id ≠ m.id →
    l.span.overlaps m.span = true → slot l.id ≠ slot m.id

variable {spans : Std.TreeMap Nat Span} {slot : Nat → Nat}

theorem mem_covering {n p : Nat} :
    n ∈ covering spans p ↔ ∃ s, spans[n]? = some s ∧ s.Covers p := by
  simp only [covering, List.mem_map, List.mem_filter, decide_eq_true_eq, Prod.exists]
  constructor
  · rintro ⟨m, s, ⟨hm, hc⟩, rfl⟩
    exact ⟨s, Std.TreeMap.mem_toList_iff_getElem?_eq_some.1 hm, hc⟩
  · rintro ⟨s, hn, hc⟩
    exact ⟨n, s, ⟨Std.TreeMap.mem_toList_iff_getElem?_eq_some.2 hn, hc⟩, rfl⟩

theorem nodup_covering (spans : Std.TreeMap Nat Span) (p : Nat) : (covering spans p).Nodup := by
  refine List.pairwise_map.2 (List.Pairwise.filter _ ?_)
  refine Std.TreeMap.distinct_keys_toList.imp fun {x y} (h : ¬compare x.1 y.1 = .eq) heq ↦ ?_
  exact h (Nat.compare_eq_eq.2 heq)

theorem load_le_size (spans : Std.TreeMap Nat Span) (p : Nat) : load spans p ≤ spans.size := by
  rw [load, covering, List.length_map, ← Std.TreeMap.length_toList]
  exact List.length_filter_le _ _

/-- Some position has the greatest load of all. -/
theorem exists_isGreatest_load (spans : Std.TreeMap Nat Span) :
    ∃ K, IsGreatest (Set.range (load spans)) K := by
  refine BddAbove.exists_isGreatest_of_nonempty ⟨spans.size, ?_⟩ (Set.range_nonempty _)
  rintro _ ⟨p, rfl⟩
  exact load_le_size spans p

/-- **Numbers below `m` are enough only if no load exceeds `m`.** The locals that cover a position
overlap each other there. -/
theorem KeepsApart.load_le (h : KeepsApart spans slot) {m : Nat} (hm : ∀ n ∈ spans, slot n < m)
    (p : Nat) : load spans p ≤ m := by
  have hnodup : ((covering spans p).map slot).Nodup := by
    refine List.Nodup.map_on (fun i hi j hj heq ↦ ?_) (nodup_covering spans p)
    obtain ⟨s, hs, hsp⟩ := mem_covering.1 hi
    obtain ⟨t, ht, htp⟩ := mem_covering.1 hj
    by_contra hne
    exact h ⟨i, s⟩ ⟨j, t⟩ hs ht hne (Span.overlaps_of_covers hsp htp) heq
  have hsub : (covering spans p).map slot ⊆ List.range m := by
    intro k hk
    obtain ⟨n, hn, rfl⟩ := List.mem_map.1 hk
    obtain ⟨s, hs, -⟩ := mem_covering.1 hn
    exact List.mem_range.2 (hm n (mem_iff_exists_getElem?.2 ⟨s, hs⟩))
  have hlen := (List.subperm_of_subset hnodup hsub).length_le
  rwa [List.length_map, List.length_range] at hlen

namespace FirstFit

/-- First fit keeps overlapping spans apart: the later of the two starts within the other. -/
theorem keepsApart (h : FirstFit spans slot) : KeepsApart spans slot := by
  intro l m hl hm hne ho
  obtain ⟨hlm, hml⟩ := Span.overlaps_iff.1 ho
  rcases Live.before_or_before hne with hb | hb
  · exact (h m hm).1 l hl hb ⟨hb.start_le, hml⟩
  · exact ((h l hl).1 m hm hb ⟨hb.start_le, hlm⟩).symm

/-- **First fit stays below the load** of the position at which a span starts: every smaller number
belongs to another local that covers it. -/
theorem lt_load (h : FirstFit spans slot) {n : Nat} {s : Span} (hn : spans[n]? = some s)
    (hs : s.start ≤ s.stop) : slot n < load spans s.start := by
  have hself : n ∈ covering spans s.start := mem_covering.2 ⟨s, hn, Nat.le_refl _, hs⟩
  have hsub : List.range (slot n) ⊆ ((covering spans s.start).erase n).map slot := by
    intro j hj
    by_contra hno
    have hle : slot n ≤ j := (h ⟨n, s⟩ hn).2 fun m hm hb hc heq ↦ by
      have hne : m.id ≠ n := by
        rintro rfl
        obtain rfl : m.span = s := Option.some.inj (hm.symm.trans hn)
        exact hb.asymm hb
      refine hno (List.mem_map.2 ⟨m.id, (List.mem_erase_of_ne hne).2 ?_, heq⟩)
      exact mem_covering.2 ⟨m.span, hm, hc⟩
    exact absurd (List.mem_range.1 hj) (Nat.not_lt.2 hle)
  have hlen := (List.subperm_of_subset List.nodup_range hsub).length_le
  rw [List.length_range, List.length_map, List.length_erase_of_mem hself] at hlen
  have hpos : 0 < load spans s.start := List.length_pos_of_mem hself
  unfold load at hpos ⊢
  omega

/-- **First-fit numbers stay below the greatest load**: all numbers below one are taken at its
start. -/
theorem lt_of_isGreatest (h : FirstFit spans slot)
    (hs : ∀ (n : Nat) (s : Span), spans[n]? = some s → s.start ≤ s.stop) {K : Nat}
    (hK : IsGreatest (Set.range (load spans)) K) {n : Nat} (hn : n ∈ spans) : slot n < K := by
  obtain ⟨s, hspan⟩ := mem_iff_exists_getElem?.1 hn
  exact Nat.lt_of_lt_of_le (h.lt_load hspan (hs n s hspan)) (hK.2 ⟨s.start, rfl⟩)

end FirstFit

/-- **The greatest load is the least number of registers** that keep overlapping spans apart. -/
theorem isLeast_of_isGreatest_load
    (hs : ∀ (n : Nat) (s : Span), spans[n]? = some s → s.start ≤ s.stop) {K : Nat}
    (hK : IsGreatest (Set.range (load spans)) K) :
    IsLeast {m | ∃ slot, KeepsApart spans slot ∧ ∀ n ∈ spans, slot n < m} K := by
  obtain ⟨slot, hfit⟩ := exists_firstFit spans
  refine ⟨⟨slot, hfit.keepsApart, fun n hn ↦ hfit.lt_of_isGreatest hs hK hn⟩, ?_⟩
  rintro m ⟨slot', hapart, hm⟩
  obtain ⟨p, rfl⟩ := hK.1
  exact hapart.load_le hm p

namespace Scan

/-! ### Registers in use -/

/-- A register counted behind a span was counted before it, or it is the one that the span got. -/
theorem lt_next_of_serve {s t : Scan} {span : Span} {k j : Nat}
    (h : s.serve span = some (k, t)) (hj : j < t.next) : j < s.next ∨ k = j := by
  obtain ⟨u, hu, rfl⟩ := serve_eq_some h
  rw [← next_expire s span.start]
  unfold Scan.take at hu
  split at hu
  · obtain ⟨rfl, rfl⟩ := Prod.mk.inj (Option.some.inj hu)
    exact Or.inl hj
  · split at hu
    · obtain ⟨rfl, rfl⟩ := Prod.mk.inj (Option.some.inj hu)
      rcases Nat.lt_succ_iff_lt_or_eq.1 hj with hj | hj
      · exact Or.inl hj
      · exact Or.inr hj.symm
    · cases hu

/-- **Every register that is counted is in use somewhere.** -/
theorem Serves.exists_of_lt_next {s u : Scan} {xs : List (Live × Nat)} (h : Serves s xs u)
    {j : Nat} (hj : j < u.next) : j < s.next ∨ ∃ x ∈ xs, x.2 = j := by
  induction h with
  | nil s => exact Or.inl hj
  | cons hserve hs ih =>
    rcases ih hj with hj | ⟨x, hx, rfl⟩
    · rcases lt_next_of_serve hserve hj with hj | rfl
      · exact Or.inl hj
      · exact Or.inr ⟨_, List.mem_cons_self, rfl⟩
    · exact Or.inr ⟨x, List.mem_cons_of_mem _ hx, rfl⟩

/-! ### Where the scan gives up -/

/-- A scan that fails has served some spans and fails at the next one. -/
theorem serveAll_eq_none {ls : List Live} {s : Scan} {homes : Std.TreeMap Nat Operand}
    (h : serveAll ls s homes = none) :
    ∃ (xs : List (Live × Nat)) (t : Scan) (l : Live) (rest : List Live),
      ls = xs.map Prod.fst ++ l :: rest ∧ Serves s xs t ∧ t.serve l.span = none := by
  induction ls generalizing s homes with
  | nil => cases h
  | cons l ls ih =>
    rw [serveAll] at h
    split at h
    · next slot t hserve =>
      obtain ⟨xs, u, m, rest, rfl, hrun, hnone⟩ := ih h
      exact ⟨(l, slot) :: xs, u, m, rest, rfl, .cons hserve hrun, hnone⟩
    · next hserve => exact ⟨[], s, l, ls, rfl, .nil s, hserve⟩

/-- A span cannot be served only if no slot is free and none is left. -/
theorem serve_eq_none {s : Scan} {span : Span} (h : s.serve span = none) :
    least? (s.expire span.start).free = none ∧ operandLimit ≤ s.next := by
  unfold Scan.serve at h
  split at h
  · cases h
  · next htake =>
    unfold Scan.take at htake
    split at htake
    · cases htake
    · next hfree =>
      split at htake
      · cases htake
      · next hlim =>
        rw [next_expire] at hlim
        exact ⟨hfree, Nat.not_lt.1 hlim⟩

section Proper

variable (hs : ∀ (n : Nat) (s : Span), spans[n]? = some s → s.start ≤ s.stop)

include hs

/-- **The scan gives up only where first fit goes beyond the limit**: all registers that there can
be belong to served spans that reach the start of the next one. -/
theorem le_of_serve_eq_none (hfit : FirstFit spans slot) {xs : List (Live × Nat)} {t : Scan}
    {l : Live} {rest : List Live} (hq : queue spans = xs.map Prod.fst ++ l :: rest)
    (hrun : Serves {} xs t) (h : t.serve l.span = none) : operandLimit ≤ slot l.id := by
  obtain ⟨hfree, hlim⟩ := serve_eq_none h
  have hxs := hrun.eq_of_firstFit hs hfit ⟨l :: rest, hq.symm⟩
  obtain ⟨q, ht, hle⟩ := hrun.tracks_front hs hq
  have hexp := ht.expire hle
  have hmem : l ∈ queue spans := hq ▸ List.mem_append_right _ List.mem_cons_self
  have hnew := (forall_served_iff hq hxs).2 (hfit l (mem_queue.1 hmem)).1
  by_contra hlt
  -- the number of the rule is below `next` and not released, so a span that reaches here has it
  have hin : ∃ g ∈ (t.expire l.span.start).active, g.slot = slot l.id := by
    by_contra hno
    refine not_mem_of_least?_eq_none hfree (slot l.id) ((hexp.mem_free _).2 ⟨?_, ?_⟩)
    · rw [next_expire]
      omega
    · exact fun g hg heq ↦ hno ⟨g, hg, heq⟩
  obtain ⟨g, hg, heq⟩ := hin
  obtain ⟨x, hx, rfl, hreach⟩ := (hexp.mem_active g).1 hg
  exact hnew x hx hreach heq

/-! ### The pass as a whole -/

/-- A pass that fails does so because first fit goes beyond the limit. -/
theorem exists_le_of_run_eq_none (hfit : FirstFit spans slot) {homes : Std.TreeMap Nat Operand}
    (h : run spans homes = none) : ∃ n ∈ spans, operandLimit ≤ slot n := by
  unfold run at h
  split at h
  · cases h
  · next hall =>
    obtain ⟨xs, t, l, rest, hq, hrun, hnone⟩ := serveAll_eq_none hall
    have hmem : l ∈ queue spans := hq ▸ List.mem_append_right _ List.mem_cons_self
    exact ⟨l.id, mem_iff_exists_getElem?.2 ⟨l.span, mem_queue.1 hmem⟩,
      le_of_serve_eq_none hs hfit hq hrun hnone⟩

/-- The registers that a pass gives out are those below its count. -/
theorem registers_of_run {homes homes' : Std.TreeMap Nat Operand} {count : Nat}
    (h : run spans homes = some (count, homes')) :
    {j | ∃ n ∈ spans, ∃ k : UInt16, homes'[n]? = some (.register k) ∧ k.toNat = j} =
      Set.Iio count := by
  obtain ⟨slot, hfit⟩ := exists_firstFit spans
  ext j
  constructor
  · rintro ⟨n, hn, k, hk, rfl⟩
    rw [toNat_of_firstFit hs hfit h hn hk]
    exact (register_of_firstFit hs hfit h hn).1
  · intro hj
    obtain ⟨xs, u, hxs, hrun, rfl, -⟩ := serves_of_run h
    rcases hrun.exists_of_lt_next hj with hlt | ⟨x, hx, rfl⟩
    · exact absurd hlt (Nat.not_lt_zero j)
    · have hmem : x.1 ∈ queue spans := hxs ▸ List.mem_map_of_mem hx
      have hn : x.1.id ∈ spans := mem_iff_exists_getElem?.2 ⟨x.1.span, mem_queue.1 hmem⟩
      obtain ⟨-, k, hk, hslot⟩ := register_of_firstFit hs hfit h hn
      refine ⟨x.1.id, hn, k, hk, ?_⟩
      rw [hslot, hrun.eq_of_firstFit hs hfit (hxs ▸ List.prefix_rfl) x hx]

/-- A pass that succeeds counts as many registers as the greatest load: each one that it counts is
the number of some local, and these numbers keep overlapping spans apart. -/
theorem count_eq_of_run {K : Nat} (hK : IsGreatest (Set.range (load spans)) K)
    {homes homes' : Std.TreeMap Nat Operand} {count : Nat}
    (h : run spans homes = some (count, homes')) : count = K := by
  obtain ⟨slot, hfit⟩ := exists_firstFit spans
  refine Nat.le_antisymm ?_ ?_
  · by_contra hlt
    have hmem : K ∈ Set.Iio count := Nat.not_le.1 hlt
    rw [← registers_of_run hs h] at hmem
    obtain ⟨n, hn, k, hk, rfl⟩ := hmem
    have hslot := toNat_of_firstFit hs hfit h hn hk
    exact absurd (hfit.lt_of_isGreatest hs hK hn) (hslot ▸ Nat.lt_irrefl _)
  · exact (isLeast_of_isGreatest_load hs hK).2
      ⟨slot, hfit.keepsApart, fun n hn ↦ (register_of_firstFit hs hfit h hn).1⟩

end Proper

/-- **The scan is optimal and its limit exact.** Let `K` be the greatest number of spans that cover
one position. If `K` respects the limit, the scan counts `K` registers and uses each of them;
otherwise it fails. In either case `K` is the least number of registers that keep overlapping spans
apart. -/
theorem run_optimal (hs : ∀ (n : Nat) (s : Span), spans[n]? = some s → s.start ≤ s.stop)
    (homes : Std.TreeMap Nat Operand) :
    ∃ K, IsGreatest (Set.range (load spans)) K ∧
      (K ≤ operandLimit → ∃ homes', run spans homes = some (K, homes') ∧
        {j | ∃ n ∈ spans, ∃ k : UInt16, homes'[n]? = some (.register k) ∧ k.toNat = j} =
          Set.Iio K) ∧
      (operandLimit < K → run spans homes = none) ∧
      IsLeast {m | ∃ slot, KeepsApart spans slot ∧ ∀ n ∈ spans, slot n < m} K := by
  obtain ⟨K, hK⟩ := exists_isGreatest_load spans
  obtain ⟨slot, hfit⟩ := exists_firstFit spans
  refine ⟨K, hK, fun hlim ↦ ?_, fun hlim ↦ ?_, isLeast_of_isGreatest_load hs hK⟩
  · cases h : run spans homes with
    -- the scan gives up only at a first-fit number beyond the limit, and those are below `K`
    | none =>
      obtain ⟨n, hn, hle⟩ := exists_le_of_run_eq_none hs hfit h
      have hlt := hfit.lt_of_isGreatest hs hK hn
      omega
    | some r =>
      obtain ⟨count, homes'⟩ := r
      obtain rfl := count_eq_of_run hs hK h
      exact ⟨homes', rfl, registers_of_run hs h⟩
  · cases h : run spans homes with
    | none => rfl
    | some r =>
      obtain ⟨count, homes'⟩ := r
      obtain rfl := count_eq_of_run hs hK h
      exact absurd (run_count_le hs h) (Nat.not_le.2 hlim)

/-- At position `2` three of the nested spans meet, so three registers are given out, and two would
not do. -/
theorem run_optimal_nested :
    ∃ homes', run nested ∅ = some (3, homes') ∧ IsGreatest (Set.range (load nested)) 3 ∧
      IsLeast {m | ∃ slot, KeepsApart nested slot ∧ ∀ n ∈ nested, slot n < m} 3 := by
  have hcount : (run nested ∅).map Prod.fst = some 3 := by decide +kernel
  obtain ⟨K, hK, hok, hfail, hleast⟩ := run_optimal nested_start_le_stop ∅
  by_cases hlim : K ≤ operandLimit
  · obtain ⟨homes', hrun, -⟩ := hok hlim
    rw [hrun] at hcount
    obtain rfl : K = 3 := Option.some.inj hcount
    exact ⟨homes', hrun, hK, hleast⟩
  · rw [hfail (Nat.not_le.1 hlim)] at hcount
    cases hcount

end Scan

end RegisterBytecode
