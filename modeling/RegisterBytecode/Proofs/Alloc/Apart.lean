import Mathlib.Data.List.Pairwise
import Mathlib.Order.Bounds.Basic
import RegisterBytecode.Alloc.Scan
import RegisterBytecode.Proofs.Alloc.Keyed
import RegisterBytecode.Proofs.Alloc.Widening

/-!
# Overlapping spans get different registers

The scan serves spans by ascending start. What it knows at any time is described by
`Scan.Tracks`: the registers in use are those of the served spans that reach the current
position, no two of them share a register, and the released registers are exactly the others
below `next`. Serving one more span keeps the description (`Scan.Tracks.serve`) and gives it the
**least** register that is not in use (`Scan.Tracks.isLeast_of_serve`); hence, along a whole run,
two spans of which the later one starts before the earlier one ends have different registers
(`Scan.Tracks.apart`).

A run is recorded as the list of spans with the registers that they got (`Scan.Serves`), apart
from the map in which the result is noted.
-/

namespace RegisterBytecode

/-- What an operand can address fits a word. -/
theorem toNat_toUInt16 {n : Nat} (h : n ≤ operandLimit) : n.toUInt16.toNat = n :=
  UInt16.toNat_ofNat_of_lt' (Nat.lt_of_le_of_lt h (by decide))

/-! ### The two orders -/

theorem Held.eq_of_order {g h : Held} (ho : Held.order g h = .eq) : g = h := by
  obtain ⟨a, b⟩ := g
  obtain ⟨c, d⟩ := h
  simp only [Held.order, compareLex_eq_eq, compareOn, Nat.compare_eq_eq] at ho
  obtain ⟨rfl, rfl⟩ := ho
  rfl

instance : Std.LawfulEqCmp Held.order where
  compare_self := Std.ReflCmp.compare_self
  eq_of_compare := Held.eq_of_order

/-- A register that comes first in the order is not held longer. -/
theorem Held.stop_le_of_order {g h : Held} (ho : (Held.order g h).isLE = true) :
    g.stop ≤ h.stop := by
  simp only [Held.order, compareLex, compareOn] at ho
  by_contra hlt
  have hgt : compare g.stop h.stop = .gt := Nat.compare_eq_gt.2 (by omega)
  rw [hgt] at ho
  simp at ho

theorem Live.eq_of_order {l m : Live} (ho : Live.order l m = .eq) : l = m := by
  obtain ⟨i, a, b⟩ := l
  obtain ⟨j, c, d⟩ := m
  simp only [Live.order, compareLex_eq_eq, compareOn, Nat.compare_eq_eq] at ho
  obtain ⟨rfl, rfl, rfl⟩ := ho
  rfl

instance : Std.LawfulEqCmp Live.order where
  compare_self := Std.ReflCmp.compare_self
  eq_of_compare := Live.eq_of_order

/-- Spans are served in order of their starts. -/
theorem Live.start_le_of_order {l m : Live} (ho : Live.order l m = .lt) :
    l.span.start ≤ m.span.start := by
  simp only [Live.order, compareLex, compareOn] at ho
  by_contra hlt
  have hgt : compare l.span.start m.span.start = .gt := Nat.compare_eq_gt.2 (by omega)
  rw [hgt] at ho
  simp at ho

namespace Scan

/-- The least element of a set is one that stands before all others. -/
theorem least?_eq_some_iff {α : Type} {cmp : α → α → Ordering} [Std.TransCmp cmp]
    [Std.LawfulEqCmp cmp] {t : Std.TreeSet α cmp} {a : α} :
    least? t = some a ↔ a ∈ t ∧ ∀ x ∈ t, (cmp a x).isLE = true := by
  rw [least?_eq_min?, Std.TreeSet.min?_eq_some_iff_mem_and_forall]

theorem not_mem_of_least?_eq_none {α : Type} {cmp : α → α → Ordering} [Std.TransCmp cmp]
    {t : Std.TreeSet α cmp} (h : least? t = none) (a : α) : a ∉ t := by
  rw [least?_eq_min?, Std.TreeSet.min?_eq_none_iff] at h
  exact Std.TreeSet.not_mem_of_isEmpty h

/-! ### Releasing registers -/

/-- What stays in use is what reaches the position. -/
theorem mem_active_expire {s : Scan} {p : Nat} {h : Held} :
    h ∈ (s.expire p).active ↔ h ∈ s.active ∧ p ≤ h.stop := by
  fun_induction expire s p with
  | case1 s hm =>
    have hempty := not_mem_of_least?_eq_none hm h
    exact ⟨fun hh ↦ absurd hh hempty, fun hh ↦ absurd hh.1 hempty⟩
  | case2 s held hm hlt ih =>
    rw [ih, Std.TreeSet.mem_erase, Std.LawfulEqCmp.compare_eq_iff_eq.ne]
    constructor
    · rintro ⟨⟨-, hh⟩, hp⟩
      exact ⟨hh, hp⟩
    · rintro ⟨hh, hp⟩
      exact ⟨⟨fun heq ↦ absurd (heq ▸ hlt) (Nat.not_lt.2 hp), hh⟩, hp⟩
  | case3 s held hm hge =>
    -- the least element reaches the position, and the others are held no shorter
    constructor
    · intro hh
      have hle := Held.stop_le_of_order ((least?_eq_some_iff.1 hm).2 h hh)
      exact ⟨hh, by omega⟩
    · exact And.left

/-- Expiring frees the slots that are held no longer, and keeps those that are free. -/
theorem mem_free_expire {s : Scan} {p k : Nat} :
    k ∈ (s.expire p).free ↔ k ∈ s.free ∨ ∃ h ∈ s.active, h.stop < p ∧ h.slot = k := by
  fun_induction expire s p with
  | case1 s hm =>
    constructor
    · exact Or.inl
    · rintro (hk | ⟨h, hh, -⟩)
      · exact hk
      · exact absurd hh (not_mem_of_least?_eq_none hm h)
  -- one slot moves over, and the hypothesis speaks of the rest
  | case2 s held hm hlt ih =>
    rw [ih, Std.TreeSet.mem_insert, Nat.compare_eq_eq]
    constructor
    · rintro ((rfl | hk) | ⟨h, hh, hlt', rfl⟩)
      · exact Or.inr ⟨held, (least?_eq_some_iff.1 hm).1, hlt, rfl⟩
      · exact Or.inl hk
      · exact Or.inr ⟨h, Std.TreeSet.mem_of_mem_erase hh, hlt', rfl⟩
    · rintro (hk | ⟨h, hh, hlt', rfl⟩)
      · exact Or.inl (Or.inr hk)
      · by_cases heq : held = h
        · exact Or.inl (Or.inl (congrArg Held.slot heq))
        · refine Or.inr ⟨h, Std.TreeSet.mem_erase.2 ⟨?_, hh⟩, hlt', rfl⟩
          exact fun ho ↦ heq (Held.eq_of_order ho)
  -- the least is still held, hence so are all others
  | case3 s held hm hge =>
    constructor
    · exact Or.inl
    · rintro (hk | ⟨h, hh, hlt', -⟩)
      · exact hk
      · have hle := Held.stop_le_of_order ((least?_eq_some_iff.1 hm).2 h hh)
        omega

@[simp] theorem next_expire (s : Scan) (p : Nat) : (s.expire p).next = s.next := by
  fun_induction expire s p with
  | case1 s hm => rfl
  | case2 s held hm hlt ih => exact ih
  | case3 s held hm hge => rfl

/-! ### What the state of a pass says -/

/-- The state `s` describes the spans served so far, with their registers, as they stand at
position `p`. -/
structure Tracks (s : Scan) (served : List (Live × Nat)) (p : Nat) : Prop where
  /-- In use are the registers of the served spans that reach the position. -/
  mem_active : ∀ h, h ∈ s.active ↔
    ∃ x ∈ served, (⟨x.1.span.stop, x.2⟩ : Held) = h ∧ p ≤ x.1.span.stop
  /-- No register is in use twice. -/
  slot_inj : ∀ g ∈ s.active, ∀ h ∈ s.active, g.slot = h.slot → g = h
  /-- Released are the registers below `next` that are not in use. -/
  mem_free : ∀ k, k ∈ s.free ↔ k < s.next ∧ ∀ h ∈ s.active, h.slot ≠ k
  /-- Every register given out lies below `next`. -/
  slot_lt : ∀ x ∈ served, x.2 < s.next
  /-- The number of registers respects the limit. -/
  next_le : s.next ≤ operandLimit
  /-- A span that starts before an earlier one ends has another register. -/
  apart : served.Pairwise fun x y ↦ y.1.span.start ≤ x.1.span.stop → x.2 ≠ y.2

theorem Tracks.init : Tracks {} [] 0 where
  mem_active h := by simp
  slot_inj g hg := by simp at hg
  mem_free k := by simp
  slot_lt x hx := by simp at hx
  next_le := Nat.zero_le _
  apart := .nil

/-- A register in use lies below `next`. -/
theorem Tracks.slot_lt_of_active {s : Scan} {served : List (Live × Nat)} {p : Nat}
    (ht : s.Tracks served p) {h : Held} (hh : h ∈ s.active) : h.slot < s.next := by
  obtain ⟨x, hx, rfl, -⟩ := (ht.mem_active h).1 hh
  exact ht.slot_lt x hx

/-- Releasing registers moves the description to a later position. -/
theorem Tracks.expire {s : Scan} {served : List (Live × Nat)} {p q : Nat}
    (ht : s.Tracks served p) (hpq : p ≤ q) : (s.expire q).Tracks served q where
  mem_active h := by
    rw [mem_active_expire, ht.mem_active]
    constructor
    · rintro ⟨⟨x, hx, rfl, -⟩, hq⟩
      exact ⟨x, hx, rfl, hq⟩
    · rintro ⟨x, hx, rfl, hq⟩
      exact ⟨⟨x, hx, rfl, Nat.le_trans hpq hq⟩, hq⟩
  slot_inj g hg h hh := ht.slot_inj g (mem_active_expire.1 hg).1 h (mem_active_expire.1 hh).1
  mem_free k := by
    rw [mem_free_expire, next_expire, ht.mem_free]
    constructor
    · rintro (⟨hk, hfree⟩ | ⟨g, hg, hlt, rfl⟩)
      · exact ⟨hk, fun h hh ↦ hfree h (mem_active_expire.1 hh).1⟩
      · -- whoever holds the same register is the same holder, and that one is gone
        refine ⟨ht.slot_lt_of_active hg, fun h hh heq ↦ ?_⟩
        obtain ⟨hh, hq⟩ := mem_active_expire.1 hh
        rw [ht.slot_inj h hh g hg heq] at hq
        omega
    · rintro ⟨hk, hfree⟩
      by_cases hin : ∃ g ∈ s.active, g.slot = k
      · obtain ⟨g, hg, rfl⟩ := hin
        refine Or.inr ⟨g, hg, ?_, rfl⟩
        by_contra hge
        exact hfree g (mem_active_expire.2 ⟨hg, by omega⟩) rfl
      · exact Or.inl ⟨hk, fun h hh heq ↦ hin ⟨h, hh, heq⟩⟩
  slot_lt x hx := by
    rw [next_expire]
    exact ht.slot_lt x hx
  next_le := by
    rw [next_expire]
    exact ht.next_le
  apart := ht.apart

/-! ### Serving one span -/

/-- What taking a register does: it gives the least one that is not in use, changes nothing about
those in use, and uses up the register that it gives. -/
theorem Tracks.take {s t : Scan} {served : List (Live × Nat)} {p k : Nat}
    (ht : s.Tracks served p) (h : s.take = some (k, t)) :
    IsLeast {j | ∀ g ∈ s.active, g.slot ≠ j} k ∧ t.active = s.active ∧ s.next ≤ t.next ∧
      k < t.next ∧ t.next ≤ operandLimit ∧ ∀ j, j ∈ t.free ↔
        j < t.next ∧ j ≠ k ∧ ∀ g ∈ s.active, g.slot ≠ j := by
  unfold Scan.take at h
  split at h
  · next slot hm =>
    obtain ⟨hmem, hmin⟩ := least?_eq_some_iff.1 hm
    obtain ⟨rfl, rfl⟩ := Prod.mk.inj (Option.some.inj h)
    obtain ⟨hlt, hfree⟩ := (ht.mem_free slot).1 hmem
    refine ⟨⟨hfree, fun j hj ↦ ?_⟩, rfl, Nat.le_refl _, hlt, ht.next_le, fun j ↦ ?_⟩
    · -- a smaller register out of use would have been released, and taken instead
      by_contra hgt
      have hj : j ∈ s.free := (ht.mem_free j).2 ⟨by omega, hj⟩
      have hle := hmin j hj
      rw [Nat.isLE_compare] at hle
      omega
    · rw [Std.TreeSet.mem_erase, Nat.compare_eq_eq.ne, ht.mem_free]
      constructor
      · rintro ⟨hne, hj, hg⟩
        exact ⟨hj, Ne.symm hne, hg⟩
      · rintro ⟨hj, hne, hg⟩
        exact ⟨Ne.symm hne, hj, hg⟩
  · next hm =>
    split at h
    · next hlim =>
      obtain ⟨rfl, rfl⟩ := Prod.mk.inj (Option.some.inj h)
      -- nothing is released, so all registers below `next` are in use
      have hall : ∀ j < s.next, ∃ g ∈ s.active, g.slot = j := by
        intro j hj
        by_contra hno
        exact not_mem_of_least?_eq_none hm j
          ((ht.mem_free j).2 ⟨hj, fun g hg heq ↦ hno ⟨g, hg, heq⟩⟩)
      refine ⟨⟨fun g hg ↦ ?_, fun j hj ↦ ?_⟩, rfl, Nat.le_succ _, Nat.lt_succ_self _, hlim,
        fun j ↦ ?_⟩
      · exact Nat.ne_of_lt (ht.slot_lt_of_active hg)
      · by_contra hlt
        obtain ⟨g, hg, heq⟩ := hall j (by omega)
        exact hj g hg heq
      · constructor
        · intro hj
          exact absurd hj (not_mem_of_least?_eq_none hm j)
        · rintro ⟨hj, hne, hfree⟩
          obtain ⟨g, hg, heq⟩ := hall j (Nat.lt_of_le_of_ne (Nat.le_of_lt_succ hj) hne)
          exact absurd heq (hfree g hg)
    · cases h

/-- Serving a span releases, takes and then holds a register. -/
theorem serve_eq_some {s t : Scan} {span : Span} {k : Nat} (h : s.serve span = some (k, t)) :
    ∃ u, (s.expire span.start).take = some (k, u) ∧
      t = { u with active := u.active.insert ⟨span.stop, k⟩ } := by
  unfold Scan.serve at h
  split at h
  · next slot u hu =>
    obtain ⟨rfl, rfl⟩ := Prod.mk.inj (Option.some.inj h)
    exact ⟨u, hu, rfl⟩
  · cases h

/-- **First fit.** A span gets the least register that no served span reaching its start has. -/
theorem Tracks.isLeast_of_serve {s t : Scan} {served : List (Live × Nat)} {p k : Nat}
    {span : Span} (ht : s.Tracks served p) (hp : p ≤ span.start)
    (h : s.serve span = some (k, t)) :
    IsLeast {j | ∀ x ∈ served, span.start ≤ x.1.span.stop → x.2 ≠ j} k := by
  obtain ⟨u, hu, -⟩ := serve_eq_some h
  have hexp := ht.expire hp
  have hset : {j | ∀ g ∈ (s.expire span.start).active, g.slot ≠ j} =
      {j | ∀ x ∈ served, span.start ≤ x.1.span.stop → x.2 ≠ j} := by
    ext j
    constructor
    · intro hj x hx hle
      exact hj _ ((hexp.mem_active _).2 ⟨x, hx, rfl, hle⟩)
    · intro hj g hg
      obtain ⟨x, hx, rfl, hle⟩ := (hexp.mem_active g).1 hg
      exact hj x hx hle
  rw [← hset]
  exact (hexp.take hu).1

/-- **Serving one span keeps the description.** -/
theorem Tracks.serve {s t : Scan} {served : List (Live × Nat)} {p k : Nat} {l : Live}
    (ht : s.Tracks served p) (hp : p ≤ l.span.start) (hl : l.span.start ≤ l.span.stop)
    (h : s.serve l.span = some (k, t)) : t.Tracks (served ++ [(l, k)]) l.span.start := by
  have hfirst := (ht.isLeast_of_serve hp h).1
  obtain ⟨u, hu, rfl⟩ := serve_eq_some h
  have hexp := ht.expire hp
  obtain ⟨⟨hnew, -⟩, hact, hnext, hk, hlim, hfree⟩ := hexp.take hu
  -- what is held afterwards is the new span and what has not expired
  have hmem : ∀ h : Held, h ∈ u.active.insert ⟨l.span.stop, k⟩ ↔
      (⟨l.span.stop, k⟩ : Held) = h ∨ h ∈ (s.expire l.span.start).active := by
    intro h
    rw [Std.TreeSet.mem_insert, Std.LawfulEqCmp.compare_eq_iff_eq, hact]
  refine ⟨fun h ↦ ?_, fun g hg h hh heq ↦ ?_, fun j ↦ ?_, fun x hx ↦ ?_, hlim, ?_⟩
  · rw [hmem, hexp.mem_active]
    constructor
    · rintro (rfl | ⟨x, hx, hxh, hle⟩)
      · exact ⟨(l, k), List.mem_append_right _ (List.mem_singleton_self _), rfl, hl⟩
      · exact ⟨x, List.mem_append_left _ hx, hxh, hle⟩
    · rintro ⟨x, hx, rfl, hle⟩
      rcases List.mem_append.1 hx with hx | hx
      · exact Or.inr ⟨x, hx, rfl, hle⟩
      · rw [List.mem_singleton.1 hx]
        exact Or.inl rfl
  · rcases (hmem g).1 hg with rfl | hg <;> rcases (hmem h).1 hh with rfl | hh
    · rfl
    · exact absurd heq.symm (hnew h hh)
    · exact absurd heq (hnew g hg)
    · exact hexp.slot_inj g hg h hh heq
  · rw [hfree]
    constructor
    · rintro ⟨hj, hne, hg⟩
      refine ⟨hj, fun h hh ↦ ?_⟩
      rcases (hmem h).1 hh with rfl | hh
      · exact Ne.symm hne
      · exact hg h hh
    · rintro ⟨hj, hg⟩
      exact ⟨hj, fun heq ↦ hg _ ((hmem _).2 (Or.inl rfl)) heq.symm,
        fun h hh ↦ hg h ((hmem h).2 (Or.inr hh))⟩
  · rcases List.mem_append.1 hx with hx | hx
    · exact Nat.lt_of_lt_of_le (hexp.slot_lt x hx) hnext
    · rw [List.mem_singleton.1 hx]
      exact hk
  · refine List.pairwise_append.2 ⟨ht.apart, List.pairwise_singleton _ _, fun x hx y hy ↦ ?_⟩
    rw [List.mem_singleton.1 hy]
    exact hfirst x hx

/-! ### Serving all spans -/

/-- From one state to another by serving spans in order, each with the register that it gets. -/
inductive Serves : Scan → List (Live × Nat) → Scan → Prop where
  | nil (s : Scan) : Serves s [] s
  | cons {s t u : Scan} {l : Live} {k : Nat} {xs : List (Live × Nat)}
      (h : s.serve l.span = some (k, t)) (hs : Serves t xs u) : Serves s ((l, k) :: xs) u

/-- Note the register of each span in a map of homes. -/
def assign (xs : List (Live × Nat)) (homes : Std.TreeMap Nat Operand) :
    Std.TreeMap Nat Operand :=
  xs.foldl (insertKeyed (fun x ↦ some x.1.id) fun x ↦ .register x.2.toUInt16) homes

/-- A pass is a run of served spans together with the map that notes it. -/
theorem serveAll_eq_some {ls : List Live} {s u : Scan} {homes homes' : Std.TreeMap Nat Operand}
    (h : serveAll ls s homes = some (u, homes')) :
    ∃ xs : List (Live × Nat), xs.map Prod.fst = ls ∧ Serves s xs u ∧
      homes' = assign xs homes := by
  induction ls generalizing s homes with
  | nil =>
    obtain ⟨rfl, rfl⟩ := Prod.mk.inj (Option.some.inj h)
    exact ⟨[], rfl, .nil s, rfl⟩
  | cons l ls ih =>
    rw [serveAll] at h
    split at h
    · next slot t hserve =>
      obtain ⟨xs, hxs, hrun, rfl⟩ := ih h
      exact ⟨(l, slot) :: xs, by rw [List.map_cons, hxs], .cons hserve hrun, rfl⟩
    · cases h

/-- A run is what the pass does, whatever the map in which it is noted. -/
theorem Serves.serveAll_eq {s u : Scan} {xs : List (Live × Nat)} (h : Serves s xs u)
    (homes : Std.TreeMap Nat Operand) :
    serveAll (xs.map Prod.fst) s homes = some (u, assign xs homes) := by
  induction h generalizing homes with
  | nil s => rfl
  | cons hserve hs ih =>
    rw [List.map_cons, serveAll, hserve]
    exact ih _

/-- **Serving spans in order keeps the description**, by induction from one span. The position
does not pass beyond the starts of the spans served. -/
theorem Tracks.serves {s u : Scan} {served xs : List (Live × Nat)} {p : Nat}
    (ht : s.Tracks served p) (hrun : Serves s xs u)
    (hp : ∀ x ∈ xs, p ≤ x.1.span.start) (hl : ∀ x ∈ xs, x.1.span.start ≤ x.1.span.stop)
    (ho : xs.Pairwise fun x y ↦ x.1.span.start ≤ y.1.span.start) :
    ∃ q, u.Tracks (served ++ xs) q ∧
      ∀ m, p ≤ m → (∀ x ∈ xs, x.1.span.start ≤ m) → q ≤ m := by
  induction hrun generalizing served p with
  | nil s =>
    rw [List.append_nil]
    exact ⟨p, ht, fun m hm _ ↦ hm⟩
  | cons h hs ih =>
    obtain ⟨hhead, htail⟩ := List.pairwise_cons.1 ho
    have hstep := ht.serve (hp _ List.mem_cons_self) (hl _ List.mem_cons_self) h
    obtain ⟨q, hq, hle⟩ := ih hstep hhead (fun x hx ↦ hl x (List.mem_cons_of_mem _ hx)) htail
    rw [List.append_assoc] at hq
    exact ⟨q, hq, fun m _ hm ↦
      hle m (hm _ List.mem_cons_self) fun x hx ↦ hm x (List.mem_cons_of_mem _ hx)⟩

/-! ### The queue and the map of homes -/

/-- The queue holds every span once, with its own number. -/
theorem mem_queue {spans : Std.TreeMap Nat Span} {l : Live} :
    l ∈ queue spans ↔ spans[l.id]? = some l.span := by
  rw [queue, Std.TreeSet.mem_toList, Std.TreeSet.mem_ofList, List.contains_iff_mem,
    ← Std.TreeMap.mem_toList_iff_getElem?_eq_some]
  simp only [List.mem_map, Prod.exists]
  constructor
  · rintro ⟨n, s, hmem, rfl⟩
    exact hmem
  · intro hmem
    exact ⟨l.id, l.span, hmem, rfl⟩

theorem pairwise_start_queue (spans : Std.TreeMap Nat Span) :
    (queue spans).Pairwise fun l m ↦ l.span.start ≤ m.span.start :=
  Std.TreeSet.ordered_toList.imp Live.start_le_of_order

/-- A local is queued once. -/
theorem pairwise_id_queue (spans : Std.TreeMap Nat Span) :
    (queue spans).Pairwise fun l m ↦ l.id ≠ m.id := by
  refine List.Pairwise.imp_of_mem (fun {l m} hl hm hlt hid ↦ ?_)
    (Std.TreeSet.distinct_toList (t := Std.TreeSet.ofList _ Live.order))
  have hspan : l.span = m.span := by
    have hl := mem_queue.1 hl
    rw [hid, mem_queue.1 hm] at hl
    exact (Option.some.inj hl).symm
  have heq : l = m := by
    cases l
    cases m
    simp_all
  exact hlt (heq ▸ Std.ReflCmp.compare_self)

/-- Only what was served gets a home. -/
theorem getElem?_assign_of_not_mem {xs : List (Live × Nat)} {homes : Std.TreeMap Nat Operand}
    {n : Nat} (h : ∀ x ∈ xs, x.1.id ≠ n) : (assign xs homes)[n]? = homes[n]? :=
  getElem?_foldl_insertKeyed_of_not_mem fun x hx heq ↦ h x hx (Option.some.inj heq)

/-- Where no local occurs twice, each is noted with its own register. -/
theorem getElem?_assign_of_mem {xs : List (Live × Nat)} {homes : Std.TreeMap Nat Operand}
    (hd : xs.Pairwise fun x y ↦ x.1.id ≠ y.1.id) {x : Live × Nat} (hx : x ∈ xs) :
    (assign xs homes)[x.1.id]? = some (.register x.2.toUInt16) := by
  refine getElem?_foldl_insertKeyed_of_mem hx rfl fun y hy hid ↦ ?_
  have : Std.Symm fun x y : Live × Nat ↦ x.1.id ≠ y.1.id := ⟨fun _ _ h ↦ h.symm⟩
  by_contra hne
  exact hd.forall hy hx hne (Option.some.inj hid)

/-! ### The pass as a whole -/

/-- A successful pass is a run over the whole queue, noted in the map of homes. -/
theorem serves_of_run {spans : Std.TreeMap Nat Span} {homes homes' : Std.TreeMap Nat Operand}
    {count : Nat} (h : run spans homes = some (count, homes')) :
    ∃ (xs : List (Live × Nat)) (u : Scan), xs.map Prod.fst = queue spans ∧ Serves {} xs u ∧
      count = u.next ∧ homes' = assign xs homes := by
  unfold run at h
  split at h
  · next u homes'' hall =>
    obtain ⟨rfl, rfl⟩ := Prod.mk.inj (Option.some.inj h)
    obtain ⟨xs, hxs, hrun, rfl⟩ := serveAll_eq_some hall
    exact ⟨xs, u, hxs, hrun, rfl, rfl⟩
  · cases h

/-- A run over the first spans of a queue ends in a state that describes what was given out, at a
position that is not beyond the starts of these spans. -/
theorem Serves.tracks {spans : Std.TreeMap Nat Span} {xs : List (Live × Nat)} {u : Scan}
    (hs : ∀ (n : Nat) (s : Span), spans[n]? = some s → s.start ≤ s.stop)
    (hxs : xs.map Prod.fst <+: queue spans) (hrun : Serves {} xs u) :
    ∃ q, u.Tracks xs q ∧ ∀ m, (∀ x ∈ xs, x.1.span.start ≤ m) → q ≤ m := by
  have hspan : ∀ x ∈ xs, x.1.span.start ≤ x.1.span.stop := by
    intro x hx
    have hq : x.1 ∈ queue spans := hxs.subset (List.mem_map_of_mem hx)
    exact hs _ _ (mem_queue.1 hq)
  have hord : xs.Pairwise fun x y ↦ x.1.span.start ≤ y.1.span.start := by
    have := (pairwise_start_queue spans).sublist hxs.sublist
    rwa [List.pairwise_map] at this
  obtain ⟨q, hq, hle⟩ := Tracks.init.serves hrun (fun x _ ↦ Nat.zero_le _) hspan hord
  exact ⟨q, hq, fun m hm ↦ hle m (Nat.zero_le m) hm⟩

/-- A successful pass serves the whole queue and ends in a state that describes what was given
out. -/
theorem run_eq_some {spans : Std.TreeMap Nat Span} {homes homes' : Std.TreeMap Nat Operand}
    {count : Nat} (hs : ∀ (n : Nat) (s : Span), spans[n]? = some s → s.start ≤ s.stop)
    (h : run spans homes = some (count, homes')) :
    ∃ (xs : List (Live × Nat)) (u : Scan) (q : Nat), xs.map Prod.fst = queue spans ∧
      u.Tracks xs q ∧ count = u.next ∧ homes' = assign xs homes := by
  obtain ⟨xs, u, hxs, hrun, hcount, hhomes⟩ := serves_of_run h
  obtain ⟨q, hq, -⟩ := hrun.tracks hs (hxs ▸ List.prefix_rfl)
  exact ⟨xs, u, q, hxs, hq, hcount, hhomes⟩

section Served

variable {spans : Std.TreeMap Nat Span} {xs : List (Live × Nat)}

/-- A local with a span is among those served. -/
theorem exists_mem_of_getElem? (hxs : xs.map Prod.fst = queue spans) {n : Nat} {s : Span}
    (hn : spans[n]? = some s) : ∃ k, ((⟨n, s⟩ : Live), k) ∈ xs := by
  have hq : (⟨n, s⟩ : Live) ∈ xs.map Prod.fst := by
    rw [hxs]
    exact mem_queue.2 hn
  obtain ⟨⟨l, k⟩, hx, rfl⟩ := List.mem_map.1 hq
  exact ⟨k, hx⟩

theorem pairwise_id_of_queue (hxs : xs.map Prod.fst = queue spans) :
    xs.Pairwise fun x y ↦ x.1.id ≠ y.1.id := by
  have hid := pairwise_id_queue spans
  rwa [← hxs, List.pairwise_map] at hid

end Served

section Pass

variable {spans : Std.TreeMap Nat Span} {homes homes' : Std.TreeMap Nat Operand} {count : Nat}
  (hs : ∀ (n : Nat) (s : Span), spans[n]? = some s → s.start ≤ s.stop)
  (h : run spans homes = some (count, homes'))

include hs h

/-- The number of registers respects the limit. -/
theorem run_count_le : count ≤ operandLimit := by
  obtain ⟨xs, u, q, -, ht, rfl, -⟩ := run_eq_some hs h
  exact ht.next_le

/-- Every local with a span has a register below the count. -/
theorem run_register {n : Nat} {s : Span} (hn : spans[n]? = some s) :
    ∃ k, k < count ∧ homes'[n]? = some (.register k.toUInt16) := by
  obtain ⟨xs, u, q, hxs, ht, rfl, rfl⟩ := run_eq_some hs h
  obtain ⟨k, hk⟩ := exists_mem_of_getElem? hxs hn
  exact ⟨k, ht.slot_lt _ hk, getElem?_assign_of_mem (pairwise_id_of_queue hxs) hk⟩

/-- A local without a span keeps the home it had. -/
theorem run_of_getElem?_eq_none {n : Nat} (hn : spans[n]? = none) : homes'[n]? = homes[n]? := by
  obtain ⟨xs, u, q, hxs, ht, rfl, rfl⟩ := run_eq_some hs h
  refine getElem?_assign_of_not_mem fun x hx hid ↦ ?_
  have hq : x.1 ∈ queue spans := hxs ▸ List.mem_map_of_mem hx
  rw [← hid, mem_queue.1 hq] at hn
  cases hn

/-- **Locals with overlapping spans get different registers.** -/
theorem run_apart {m n : Nat} {sm sn : Span} (hm : spans[m]? = some sm)
    (hn : spans[n]? = some sn) (hne : m ≠ n) (ho : sm.overlaps sn = true) :
    ∃ j k : UInt16, homes'[m]? = some (.register j) ∧ homes'[n]? = some (.register k) ∧
      j ≠ k := by
  obtain ⟨xs, u, q, hxs, ht, -, rfl⟩ := run_eq_some hs h
  have hid := pairwise_id_of_queue hxs
  obtain ⟨j, hj⟩ := exists_mem_of_getElem? hxs hm
  obtain ⟨k, hk⟩ := exists_mem_of_getElem? hxs hn
  -- the description is about the order of service; overlap does not depend on it
  let Apart (x y : Live × Nat) : Prop := x.1.span.overlaps y.1.span = true → x.2 ≠ y.2
  have : Std.Symm Apart := ⟨fun x y hxy hyx ↦ by
    rw [Span.overlaps_iff] at hyx
    exact (hxy (Span.overlaps_iff.2 ⟨hyx.2, hyx.1⟩)).symm⟩
  have hapart : xs.Pairwise Apart :=
    ht.apart.imp fun {x y} hxy ho ↦ hxy (Span.overlaps_iff.1 ho).2
  have hjk : j ≠ k := hapart.forall hj hk (fun heq ↦ hne (congrArg (·.1.id) heq)) ho
  refine ⟨_, _, getElem?_assign_of_mem hid hj, getElem?_assign_of_mem hid hk, fun heq ↦ hjk ?_⟩
  have hjle : j ≤ operandLimit := Nat.le_trans (Nat.le_of_lt (ht.slot_lt _ hj)) ht.next_le
  have hkle : k ≤ operandLimit := Nat.le_trans (Nat.le_of_lt (ht.slot_lt _ hk)) ht.next_le
  rw [← toNat_toUInt16 hjle, ← toNat_toUInt16 hkle]
  exact congrArg UInt16.toNat heq

end Pass

end Scan

end RegisterBytecode
