import Std.Data.TreeMap

/-!
# Maps filled by a pass over a list

Three maps of the allocator are filled in one pass over a list: positions of labels, cells of
captured locals, registers of served spans. In each of them an element of the list may have a
key, and a later element replaces an earlier one with the same key. `insertKeyed` is one step of
such a pass, and `getElem?_foldl_insertKeyed` says what the map holds behind it.
-/

namespace RegisterBytecode

variable {α β γ : Type}

theorem mem_iff_exists_getElem? {t : Std.TreeMap Nat β} {n : Nat} :
    n ∈ t ↔ ∃ b, t[n]? = some b := by
  rw [Std.TreeMap.mem_iff_isSome_getElem?, Option.isSome_iff_exists]

/-- Note the value of an element at its key, if it has one. -/
def insertKeyed (key : α → Option Nat) (value : α → β) (t : Std.TreeMap Nat β) (a : α) :
    Std.TreeMap Nat β :=
  match key a with
  | some k => t.insert k (value a)
  | none => t

/-- One element changes the entry of its key, if it has one, and no other. -/
theorem getElem?_insertKeyed (key : α → Option Nat) (value : α → β) (t : Std.TreeMap Nat β)
    (a : α) (k : Nat) :
    (insertKeyed key value t a)[k]? = if key a = some k then some (value a) else t[k]? := by
  unfold insertKeyed
  cases key a with
  | none => rfl
  | some m => simp [Std.TreeMap.getElem?_insert]

/-- **The last element with a key decides** what the map holds at it. -/
theorem getElem?_foldl_insertKeyed (key : α → Option Nat) (value : α → β) (xs : List α)
    (t : Std.TreeMap Nat β) (k : Nat) :
    (xs.foldl (insertKeyed key value) t)[k]? =
      (((xs.filter fun a ↦ key a == some k).getLast?).map value).or t[k]? := by
  induction xs generalizing t with
  | nil => rfl
  | cons a xs ih =>
    rw [List.foldl_cons, ih, getElem?_insertKeyed]
    by_cases ha : key a = some k
    · rw [if_pos ha, List.filter_cons_of_pos (by simpa using ha), List.getLast?_cons]
      cases (xs.filter fun a ↦ key a == some k).getLast? <;> rfl
    · rw [if_neg ha, List.filter_cons_of_neg (by simpa using ha)]

/-- A key that no element has keeps its entry. -/
theorem getElem?_foldl_insertKeyed_of_not_mem {key : α → Option Nat} {value : α → β}
    {xs : List α} {t : Std.TreeMap Nat β} {k : Nat} (h : ∀ a ∈ xs, key a ≠ some k) :
    (xs.foldl (insertKeyed key value) t)[k]? = t[k]? := by
  have hnil : (xs.filter fun a ↦ key a == some k) = [] := by
    rw [List.filter_eq_nil_iff]
    intro a ha
    simpa using h a ha
  rw [getElem?_foldl_insertKeyed, hnil]
  rfl

/-- Where no two elements share a key, each finds its own value. -/
theorem getElem?_foldl_insertKeyed_of_mem {key : α → Option Nat} {value : α → β} {xs : List α}
    {t : Std.TreeMap Nat β} {k : Nat} {a : α} (ha : a ∈ xs) (hk : key a = some k)
    (hu : ∀ b ∈ xs, key b = some k → b = a) :
    (xs.foldl (insertKeyed key value) t)[k]? = some (value a) := by
  have hmem : a ∈ xs.filter fun a ↦ key a == some k := by
    rw [List.mem_filter]
    exact ⟨ha, by simp [hk]⟩
  have hne := List.ne_nil_of_mem hmem
  have hlast : (xs.filter fun a ↦ key a == some k).getLast hne = a := by
    obtain ⟨hin, hkey⟩ := List.mem_filter.1 (List.getLast_mem hne)
    exact hu _ hin (by simpa using hkey)
  rw [getElem?_foldl_insertKeyed, List.getLast?_eq_some_getLast hne, hlast]
  rfl

/-- Two passes whose elements correspond leave the same value at keys that correspond. -/
theorem getElem?_foldl_insertKeyed_map {key : α → Option Nat} {value : α → β}
    {key' : γ → Option Nat} {value' : γ → β} {g : α → γ} {xs : List α} {t t' : Std.TreeMap Nat β}
    {k k' : Nat} (hkey : ∀ a ∈ xs, key' (g a) = some k' ↔ key a = some k)
    (hvalue : ∀ a ∈ xs, value' (g a) = value a) (ht : t'[k']? = t[k]?) :
    ((xs.map g).foldl (insertKeyed key' value') t')[k']? =
      (xs.foldl (insertKeyed key value) t)[k]? := by
  induction xs generalizing t t' with
  | nil => exact ht
  | cons a xs ih =>
    rw [List.map_cons, List.foldl_cons, List.foldl_cons]
    refine ih (fun b hb ↦ hkey b (List.mem_cons_of_mem _ hb))
      (fun b hb ↦ hvalue b (List.mem_cons_of_mem _ hb)) ?_
    simp only [getElem?_insertKeyed, hkey a List.mem_cons_self, hvalue a List.mem_cons_self, ht]

end RegisterBytecode
