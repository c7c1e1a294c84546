import Mathlib.Data.List.Infix
import Mathlib.Data.List.Perm.Subperm
import Mathlib.Logic.Relation
import RegisterBytecode.Proofs.Session.Order

/-!
# Breadth-first order

A list is in **breadth-first order** from a root if going through it from the left and appending
what each element leads to, unless it is there already, gives the list itself, and if everything in
it can be reached (`BreadthFirst`). The second half is not redundant: an element that leads to
nothing but itself would otherwise keep itself in the list.

There is only one such list (`BreadthFirst.unique`). What has been listed when the first `k`
elements are dealt with (`explored`) depends on these alone and is a prefix of every such list
(`BreadthFirst.explored_prefix`); either it is longer than `k` and so determines the next element,
or nothing is left to look at and it is the whole list (`BreadthFirst.eq_explored`).

Elements that lead nowhere can be left out without changing the order of the others
(`BreadthFirst.filter`).
-/

namespace RegisterBytecode

theorem nodup_foldl_reserve {order : List ConstIndex} (h : order.Nodup) (cs : List ConstIndex) :
    (cs.foldl reserve order).Nodup := by
  induction cs generalizing order with
  | nil => exact h
  | cons c cs ih =>
    refine ih ?_
    rw [reserve]
    split
    · exact h
    · next hc => exact List.Nodup.append h (List.nodup_singleton c) (by simpa using hc)

/-- Leaving elements out commutes with appending what is not there yet. -/
theorem filter_foldl_reserve (p : ConstIndex → Bool) (cs order : List ConstIndex) :
    (cs.foldl reserve order).filter p = (cs.filter p).foldl reserve (order.filter p) := by
  induction cs generalizing order with
  | nil => rfl
  | cons c cs ih =>
    rw [List.foldl_cons, ih]
    by_cases hp : p c = true
    · have hstep : (reserve order c).filter p = reserve (order.filter p) c := by
        by_cases hc : c ∈ order
        · rw [reserve, if_pos hc, reserve, if_pos (List.mem_filter.2 ⟨hc, hp⟩)]
        · rw [reserve, if_neg hc, reserve, if_neg fun hmem ↦ hc (List.mem_filter.1 hmem).1,
            List.filter_append, List.filter_cons_of_pos hp, List.filter_nil]
      rw [hstep, List.filter_cons_of_pos hp, List.foldl_cons]
    · have hstep : (reserve order c).filter p = order.filter p := by
        rw [reserve]
        split
        · rfl
        · rw [List.filter_append, List.filter_cons_of_neg hp, List.filter_nil, List.append_nil]
      rw [hstep, List.filter_cons_of_neg hp]

/-- A list in breadth-first order from a root, where `next` says what an element leads to. -/
structure BreadthFirst (next : ConstIndex → List ConstIndex) (root : ConstIndex)
    (order : List ConstIndex) : Prop where
  /-- Going through the list and appending what is not there yet gives the list. -/
  asked : order = (order.flatMap next).foldl reserve [root]
  reached : ∀ c ∈ order, Relation.ReflTransGen (fun c d ↦ d ∈ next c) root c

/-- What is listed when the first `k` elements have been dealt with. -/
def explored (next : ConstIndex → List ConstIndex) (root : ConstIndex) (order : List ConstIndex)
    (k : Nat) : List ConstIndex :=
  ((order.take k).flatMap next).foldl reserve [root]

section Explored

variable {next : ConstIndex → List ConstIndex} {root c : ConstIndex} {order : List ConstIndex}
  {k : Nat}

/-- Dealing with further elements only appends. -/
theorem explored_prefix_foldl (next : ConstIndex → List ConstIndex) (root : ConstIndex)
    (order : List ConstIndex) (k : Nat) :
    explored next root order k <+: (order.flatMap next).foldl reserve [root] := by
  conv_rhs => rw [← List.take_append_drop k order, List.flatMap_append, List.foldl_append]
  exact prefix_foldl_reserve _ _

/-- Dealing with more elements lists more, behind those that are listed. -/
theorem explored_prefix_explored (next : ConstIndex → List ConstIndex) (root : ConstIndex)
    (order : List ConstIndex) {m : Nat} (h : k ≤ m) :
    explored next root order k <+: explored next root order m := by
  have htake := explored_prefix_foldl next root (order.take m) k
  rwa [explored, List.take_take, Nat.min_eq_left h] at htake

/-- What is listed is closed if all of it has been dealt with, so nothing outside it can be
reached. -/
theorem mem_explored_of_reached (h : explored next root order k ⊆ order.take k)
    (hc : Relation.ReflTransGen (fun c d ↦ d ∈ next c) root c) :
    c ∈ explored next root order k := by
  induction hc with
  | refl => exact mem_foldl_reserve.2 (Or.inl (List.mem_singleton_self root))
  | tail _ hd ih => exact mem_foldl_reserve.2 (Or.inr (List.mem_flatMap.2 ⟨_, h ih, hd⟩))

end Explored

namespace BreadthFirst

variable {next : ConstIndex → List ConstIndex} {root : ConstIndex} {order xs ys : List ConstIndex}

theorem nodup (h : BreadthFirst next root order) : order.Nodup := by
  rw [h.asked]
  exact nodup_foldl_reserve (List.nodup_singleton root) _

/-- What is listed at any time is a first part of the order. -/
theorem explored_prefix (h : BreadthFirst next root order) (k : Nat) :
    explored next root order k <+: order := by
  conv_rhs => rw [h.asked]
  exact explored_prefix_foldl next root order k

/-- **When nothing is left to look at**, everything is listed. -/
theorem eq_explored (h : BreadthFirst next root order) {k : Nat}
    (hk : (explored next root order k).length ≤ k) : explored next root order k = order := by
  have hsub : explored next root order k ⊆ order.take k := by
    rw [List.prefix_iff_eq_take.1 (h.explored_prefix k)]
    exact (List.take_prefix_take_left hk).subset
  refine (h.explored_prefix k).eq_of_length_le ?_
  exact (h.nodup.subperm fun c hc ↦ mem_explored_of_reached hsub (h.reached c hc)).length_le

/-- The next element is known before its turn comes. -/
theorem getElem?_explored (h : BreadthFirst next root order) {k : Nat}
    (hk : k < (explored next root order k).length) :
    (explored next root order k)[k]? = order[k]? := by
  rw [List.prefix_iff_eq_take.1 (h.explored_prefix k), List.getElem?_take_of_lt hk]

/-- **There is only one breadth-first order.** -/
theorem unique (hx : BreadthFirst next root xs) (hy : BreadthFirst next root ys) : xs = ys := by
  have htake : ∀ k, xs.take k = ys.take k := by
    intro k
    induction k with
    | zero => rfl
    | succ k ih =>
      have hsame : explored next root xs k = explored next root ys k := by
        rw [explored, ih, explored]
      by_cases hk : k < (explored next root xs k).length
      · have hget : xs[k]? = ys[k]? := by
          rw [← hx.getElem?_explored hk, hsame, hy.getElem?_explored (hsame ▸ hk)]
        rw [List.take_add_one, List.take_add_one, ih, hget]
      · have hdone := Nat.not_lt.1 hk
        rw [← hx.eq_explored hdone, hsame, hy.eq_explored (hsame ▸ hdone)]
  have hall := htake (max xs.length ys.length)
  rwa [List.take_of_length_le (Nat.le_max_left _ _),
    List.take_of_length_le (Nat.le_max_right _ _)] at hall

/-- **What has been dealt with so far** is a beginning of the breadth-first order, if it is one of
what it leads to and can be reached. -/
theorem isPrefix_of_isPrefix (h : BreadthFirst next root order)
    (hxs : xs <+: (xs.flatMap next).foldl reserve [root])
    (hreached : ∀ c ∈ xs, Relation.ReflTransGen (fun c d ↦ d ∈ next c) root c) :
    xs <+: order := by
  have hnodup : xs.Nodup :=
    (nodup_foldl_reserve (List.nodup_singleton root) _).sublist hxs.sublist
  have htake : ∀ k ≤ xs.length, xs.take k = order.take k := by
    intro k
    induction k with
    | zero => exact fun _ ↦ rfl
    | succ k ih =>
      intro hk
      replace ih := ih (Nat.le_of_succ_le hk)
      have hsame : explored next root xs k = explored next root order k := by
        rw [explored, ih, explored]
      obtain ⟨fresh, hfresh⟩ := explored_prefix_foldl next root xs k
      obtain ⟨rest, hrest⟩ := hxs
      -- otherwise all that can be reached is among the first elements, and so is the next one
      have hlt : k < (explored next root xs k).length := by
        by_contra hge
        have hsub : explored next root xs k ⊆ xs.take k := by
          have htake : (xs ++ rest).take k = xs.take k :=
            List.take_append_of_le_length (Nat.le_of_succ_le hk)
          rw [← htake, hrest, ← hfresh, List.take_append,
            List.take_of_length_le (Nat.not_lt.1 hge)]
          exact List.subset_append_left _ _
        have hmem := hsub (mem_explored_of_reached hsub (hreached _ (List.getElem_mem hk)))
        obtain ⟨j, hj, hget⟩ := List.mem_take_iff_getElem.1 hmem
        have := hnodup.getElem_inj_iff.1 hget
        omega
      have hget : xs[k]? = order[k]? := by
        rw [← h.getElem?_explored (hsame ▸ hlt), ← hsame, ← List.getElem?_append_left hlt, hfresh,
          ← hrest, List.getElem?_append_left hk]
      rw [List.take_add_one, List.take_add_one, ih, hget]
  rw [← List.take_length (l := xs), htake _ (Nat.le_refl _)]
  exact List.take_prefix _ _

/-- **Elements that lead nowhere can be left out**, the root excepted. -/
theorem filter {p : ConstIndex → Bool} (h : BreadthFirst next root order) (hroot : p root = true)
    (hp : ∀ c, next c ≠ [] → p c = true) :
    BreadthFirst (fun c ↦ (next c).filter p) root (order.filter p) where
  asked := by
    have hskip : ∀ cs : List ConstIndex,
        (cs.flatMap next).filter p = (cs.filter p).flatMap fun c ↦ (next c).filter p := by
      intro cs
      induction cs with
      | nil => rfl
      | cons c cs ih =>
        rw [List.flatMap_cons, List.filter_append, ih]
        by_cases hc : p c = true
        · rw [List.filter_cons_of_pos hc, List.flatMap_cons]
        · rw [List.filter_cons_of_neg hc, not_ne_iff.1 (mt (hp c) hc), List.filter_nil,
            List.nil_append]
    conv_lhs => rw [h.asked, filter_foldl_reserve, hskip]
    rw [List.filter_cons_of_pos hroot, List.filter_nil]
  reached := by
    -- whatever lies on the way to something leads somewhere, and so has not been left out
    have hway : ∀ {c}, Relation.ReflTransGen (fun c d ↦ d ∈ next c) root c → p c = true →
        Relation.ReflTransGen (fun c d ↦ d ∈ (next c).filter p) root c := by
      intro c hc
      induction hc with
      | refl => exact fun _ ↦ .refl
      | tail _ hd ih =>
        exact fun hpd ↦ (ih (hp _ (List.ne_nil_of_mem hd))).tail (List.mem_filter.2 ⟨hd, hpd⟩)
    intro c hc
    obtain ⟨hmem, hpc⟩ := List.mem_filter.1 hc
    exact hway (h.reached c hmem) hpc

end BreadthFirst

end RegisterBytecode
