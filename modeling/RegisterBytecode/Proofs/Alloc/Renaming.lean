import Mathlib.Data.List.Sort
import Mathlib.Data.Set.Function
import RegisterBytecode.Proofs.Alloc.Homes

/-!
# Storage under other names

A body names its labels and its locals by numbers, and these decide a good deal of the choice of
storage: cells are handed out by ascending local, spans that start together are served by ascending
local, and loops are found through the numbers of labels. What the numbers are does not matter,
though, as long as different labels stay different and locals stay in their order.

`Body.Renamed` relates a body to one that has other names for its labels and locals, and also other
indices for its constants, which storage does not depend on at all. Label positions, loops and live
spans are the same under the new names (`Renamed.loops`, `Renamed.getElem?_liveSpans`), so the scan
serves the same spans in the same order (`Renamed.queue`) and gives out the same registers. Either
storage can be chosen for neither body, and then for the same reason (`Renamed.allocate_error`), or
every register has the same storage under its new name (`Renamed.allocate_ok`).
-/

namespace RegisterBytecode

/-! ### New names -/

/-- New names for the labels and the locals of a body. -/
structure Naming where
  label : Label → Label := id
  loc : Nat → Nat := id

/-- A register under new names. Upvalues keep their indices. -/
def Reg.rename (ν : Naming) : Reg → Reg
  | loc n => loc (ν.loc n)
  | upval k => upval k

/-- Names as they are. -/
theorem Reg.rename_default : Reg.rename {} = fun r ↦ r := by
  funext r
  cases r <;> rfl

namespace Instr

/-- An instruction with other labels and locals. -/
def rename (ν : Naming) : Instr → Instr
  | move dst src => move (dst.rename ν) (src.rename ν)
  | load dst index => load (dst.rename ν) index
  | binary op dst lhs rhs => binary op (dst.rename ν) (lhs.rename ν) (rhs.rename ν)
  | unary op dst src => unary op (dst.rename ν) (src.rename ν)
  | push src spread => push (src.rename ν) spread
  | jump target => jump (ν.label target)
  | branch cond target negate => branch (cond.rename ν) (ν.label target) negate
  | label l => label (ν.label l)
  | call tail callee => call tail (callee.rename ν)
  | closure dst index captures => closure (dst.rename ν) index (captures.map (Reg.rename ν))
  | continuation tail dst => continuation tail (dst.rename ν)
  | clear reg => clear (reg.rename ν)
  | newTable dst => newTable (dst.rename ν)
  | getIndex dst table key => getIndex (dst.rename ν) (table.rename ν) (key.rename ν)
  | setIndex table key value => setIndex (table.rename ν) (key.rename ν) (value.rename ν)
  | receive dsts etc => receive (dsts.map (Reg.rename ν)) (etc.map (Reg.rename ν))
  | etcLookup dst etc index => etcLookup (dst.rename ν) (etc.rename ν) index
  | fillTable table etc start => fillTable (table.rename ν) (etc.rename ν) start

/-- An instruction with other indices of constants. -/
def renumber (ρ : ConstIndex → ConstIndex) : Instr → Instr
  | load dst index => load dst (ρ index)
  | closure dst index captures => closure dst (ρ index) captures
  | i => i

variable (ρ : ConstIndex → ConstIndex) (ν : Naming) (i : Instr)

@[simp] theorem regs_rename : (i.rename ν).regs = i.regs.map (Reg.rename ν) := by
  cases i with
  | receive dsts etc => cases etc <;> simp [rename, regs]
  | _ => rfl

@[simp] theorem regs_renumber : (i.renumber ρ).regs = i.regs := by
  cases i <;> rfl

@[simp] theorem binds?_rename : (i.rename ν).binds? = i.binds?.map ν.label := by
  cases i <;> rfl

@[simp] theorem binds?_renumber : (i.renumber ρ).binds? = i.binds? := by
  cases i <;> rfl

@[simp] theorem target?_rename : (i.rename ν).target? = i.target?.map ν.label := by
  cases i <;> rfl

@[simp] theorem target?_renumber : (i.renumber ρ).target? = i.target? := by
  cases i <;> rfl

@[simp] theorem rename_default : i.rename {} = i := by
  cases i <;> simp [rename, Reg.rename_default]

@[simp] theorem renumber_id : i.renumber id = i := by
  cases i <;> rfl

end Instr

namespace Body

/-- The locals that a body mentions or declares as captured. -/
def localNames (b : Body) : Set Nat := {n | Reg.loc n ∈ b.regs ∨ Reg.loc n ∈ b.captured}

/-- The body `b'` is `b` with other indices of constants, labels and locals. Labels that differ stay
different, and the locals of the body stay in their order. -/
structure Renamed (ρ : ConstIndex → ConstIndex) (ν : Naming) (b b' : Body) : Prop where
  name : b'.name = b.name
  code : b'.code = b.code.map fun i ↦ (i.rename ν).renumber ρ
  lines : b'.lines = b.lines
  captured : ∀ r, r ∈ b'.captured ↔ ∃ s ∈ b.captured, s.rename ν = r
  upvalueNames : b'.upvalueNames = b.upvalueNames
  label_injective : Function.Injective ν.label
  loc_strictMonoOn : StrictMonoOn ν.loc b.localNames

/-- A body with other indices of constants has its names as they are. -/
theorem renamed_renumber (ρ : ConstIndex → ConstIndex) (b : Body) :
    b.Renamed ρ {} { b with code := b.code.map (Instr.renumber ρ) } where
  name := rfl
  code := by simp
  lines := rfl
  captured := by simp [Reg.rename_default]
  upvalueNames := rfl
  label_injective := Function.injective_id
  loc_strictMonoOn := strictMonoOn_id

end Body

/-- The frame `f'` gives every register that the body mentions the storage that `f` gives it under
its other name. -/
structure Frame.Renamed (ν : Naming) (b : Body) (f f' : Frame) : Prop where
  registers : f'.registers = f.registers
  cells : f'.cells = f.cells
  upvalues : f'.upvalues = f.upvalues
  operand : ∀ r ∈ b.regs, f'.operand (r.rename ν) = f.operand r

/-! ### Sorted lists -/

/-- A set in order is the one list in that order that has its elements. -/
theorem toList_eq_of_mem_iff {α : Type} {cmp : α → α → Ordering} [Std.TransCmp cmp]
    [Std.LawfulEqCmp cmp] {t : Std.TreeSet α cmp} {l : List α}
    (hl : l.Pairwise fun a b ↦ cmp a b = .lt) (h : ∀ a, a ∈ t ↔ a ∈ l) : t.toList = l := by
  have : Std.Irrefl fun a b ↦ cmp a b = .lt := ⟨fun _ h ↦ Std.OrientedCmp.not_lt_of_lt h h⟩
  have : Std.Antisymm fun a b ↦ cmp a b = .lt :=
    ⟨fun _ _ hab hba ↦ absurd hba (Std.OrientedCmp.not_lt_of_lt hab)⟩
  refine Std.TreeSet.ordered_toList.eq_of_mem_iff hl fun a ↦ ?_
  rw [Std.TreeSet.mem_toList, h]

theorem Reg.compare_eq_lt {r s : Reg} : compare r s = .lt ↔ r.id < s.id :=
  Int.compare_eq_lt

namespace Body.Renamed

variable {ρ : ConstIndex → ConstIndex} {ν : Naming} {b b' : Body}

/-- The registers of a renamed body are the renamed ones, in order. -/
theorem regs (h : b.Renamed ρ ν b') : b'.regs = b.regs.map (Reg.rename ν) := by
  rw [Body.regs, h.code, Array.toList_map, List.flatMap_map, Body.regs, List.map_flatMap]
  simp

/-- Renaming moves no instruction. -/
theorem positioned (h : b.Renamed ρ ν b') :
    b'.positioned = b.positioned.map fun x ↦ ((x.1.rename ν).renumber ρ, x.2) := by
  rw [Body.positioned, h.code, Array.toList_map, List.zipIdx_map]
  rfl

/-- Upvalues come first under either name, and locals keep their order. -/
theorem rename_lt (h : b.Renamed ρ ν b') {r s : Reg} (hr : r ∈ b.captured) (hs : s ∈ b.captured)
    (hlt : compare r s = .lt) : compare (r.rename ν) (s.rename ν) = .lt := by
  rw [Reg.compare_eq_lt] at hlt ⊢
  cases r with
  | upval k =>
    cases s with
    | upval l => exact hlt
    | loc n =>
      show (-1 - (k : Int)) < (ν.loc n : Int)
      omega
  | loc m =>
    cases s with
    | upval l =>
      simp only [Reg.id] at hlt
      omega
    | loc n =>
      exact Int.ofNat_lt.2 (h.loc_strictMonoOn (Or.inr hr) (Or.inr hs) (Int.ofNat_lt.1 hlt))

/-- **The captured registers are the same**, in the same order. -/
theorem toList_captured (h : b.Renamed ρ ν b') :
    b'.captured.toList = b.captured.toList.map (Reg.rename ν) := by
  refine toList_eq_of_mem_iff (List.pairwise_map.2 ?_) fun r ↦ ?_
  · refine List.Pairwise.imp_of_mem (fun {r s} hr hs hlt ↦ ?_) Std.TreeSet.ordered_toList
    exact h.rename_lt (Std.TreeSet.mem_toList.1 hr) (Std.TreeSet.mem_toList.1 hs) hlt
  · simp only [h.captured, List.mem_map, Std.TreeSet.mem_toList]

/-- As many registers are captured as before. -/
theorem size_captured (h : b.Renamed ρ ν b') : b'.captured.size = b.captured.size := by
  rw [← Std.TreeSet.length_toList, h.toList_captured, List.length_map, Std.TreeSet.length_toList]

/-- Names that keep their order stay apart. -/
theorem loc_injOn (h : b.Renamed ρ ν b') : Set.InjOn ν.loc b.localNames :=
  h.loc_strictMonoOn.injOn

/-- A local is captured under its new name exactly if it was under the old one. -/
theorem mem_captured (h : b.Renamed ρ ν b') {n : Nat} (hn : n ∈ b.localNames) :
    Reg.loc (ν.loc n) ∈ b'.captured ↔ Reg.loc n ∈ b.captured := by
  rw [h.captured]
  constructor
  · rintro ⟨r, hr, heq⟩
    cases r with
    | upval k => cases heq
    | loc m =>
      obtain rfl := h.loc_injOn (Or.inr hr) hn (Reg.loc.inj heq)
      exact hr
  · exact fun hn ↦ ⟨_, hn, rfl⟩

/-! ### Live spans -/

/-- Whether a register needs a home of its own does not depend on its name. -/
theorem needsRegister (h : b.Renamed ρ ν b') {r : Reg} (hr : r ∈ b.regs) :
    b'.needsRegister (r.rename ν) = b.needsRegister r := by
  cases r with
  | upval k => rfl
  | loc n =>
    have hn : n ∈ b.localNames := Or.inl hr
    rw [Reg.rename, Bool.eq_iff_iff, needsRegister_loc, needsRegister_loc, h.mem_captured hn]

/-- Locals are mentioned at the same positions as before. -/
theorem mentions (h : b.Renamed ρ ν b') :
    b'.mentions = b.mentions.map fun x ↦ (ν.loc x.1, x.2) := by
  rw [Body.mentions, h.positioned, List.flatMap_map, Body.mentions, List.map_flatMap]
  refine List.flatMap_congr fun x hx ↦ ?_
  dsimp only
  have hfilter : (x.1.regs.map (Reg.rename ν)).filter b'.needsRegister =
      (x.1.regs.filter b.needsRegister).map (Reg.rename ν) := by
    rw [List.filter_map]
    congr 1
    refine List.filter_congr fun r hr ↦ h.needsRegister ?_
    exact Body.mem_regs.2 ⟨x.2, x.1, Body.mem_positioned.1 hx, hr⟩
  rw [Instr.regs_renumber, Instr.regs_rename, hfilter, List.filterMap_map, List.map_filterMap]
  refine List.filterMap_congr fun r _ ↦ ?_
  cases r <;> rfl

theorem mem_localNames_of_mem_mentions {n p : Nat} (hx : (n, p) ∈ b.mentions) :
    n ∈ b.localNames :=
  Or.inl (Body.mem_regs.2 ⟨p, (Body.mem_mentions.1 hx).1⟩)

/-- A local has the positions that it had under its old name. -/
theorem positionsOf (h : b.Renamed ρ ν b') {n : Nat} (hn : n ∈ b.localNames) :
    b'.positionsOf (ν.loc n) = b.positionsOf n := by
  rw [Body.positionsOf, h.mentions, List.filter_map, List.map_map, Body.positionsOf]
  have hfilter : b.mentions.filter ((·.1 == ν.loc n) ∘ fun x ↦ (ν.loc x.1, x.2)) =
      b.mentions.filter (·.1 == n) := by
    refine List.filter_congr fun x hx ↦ ?_
    rw [Function.comp_apply, Bool.eq_iff_iff, beq_iff_eq, beq_iff_eq]
    exact h.loc_injOn.eq_iff (mem_localNames_of_mem_mentions hx) hn
  rw [hfilter]
  rfl

/-- **Labels are found where they were.** -/
theorem getElem?_labelPositions (h : b.Renamed ρ ν b') (l : Label) :
    b'.labelPositions[ν.label l]? = b.labelPositions[l]? := by
  have hfold : ∀ c : Body, c.labelPositions =
      c.positioned.foldl (insertKeyed (fun x ↦ x.1.binds?) Prod.snd) ∅ := fun _ ↦ rfl
  rw [hfold, hfold, h.positioned]
  refine getElem?_foldl_insertKeyed_map (fun x _ ↦ ?_) (fun _ _ ↦ rfl) rfl
  rw [Instr.binds?_renumber, Instr.binds?_rename, Option.map_eq_some_iff]
  constructor
  · rintro ⟨m, hm, heq⟩
    rw [hm, h.label_injective heq]
  · exact fun hl ↦ ⟨l, hl, rfl⟩

/-- Loops are pairs of positions, so renaming labels changes none of them. -/
theorem loops (h : b.Renamed ρ ν b') : b'.loops = b.loops := by
  rw [Body.loops, Body.loops, h.positioned, List.filterMap_map]
  refine List.filterMap_congr fun x _ ↦ ?_
  dsimp only [Function.comp_apply]
  rw [Instr.target?_renumber, Instr.target?_rename]
  cases x.1.target? with
  | none => rfl
  | some l =>
    dsimp only [Option.map_some]
    rw [h.getElem?_labelPositions]

/-- **A local lives as long as before.** -/
theorem getElem?_liveSpans (h : b.Renamed ρ ν b') {n : Nat} (hn : n ∈ b.localNames) :
    b'.liveSpans[ν.loc n]? = b.liveSpans[n]? := by
  rw [Body.getElem?_liveSpans, Body.getElem?_liveSpans, Body.getElem?_mentionSpans,
    Body.getElem?_mentionSpans, h.positionsOf hn, h.loops]

/-- A local with a span is one of the names of the body. -/
theorem mem_localNames_of_liveSpans {n : Nat} {s : Span} (hs : b.liveSpans[n]? = some s) :
    n ∈ b.localNames := by
  rw [Body.getElem?_liveSpans, Body.getElem?_mentionSpans] at hs
  obtain ⟨t, ht, -⟩ := Option.map_eq_some_iff.1 hs
  cases hps : b.positionsOf n with
  | nil =>
    rw [hps] at ht
    cases ht
  | cons p ps =>
    have hp : p ∈ b.positionsOf n := hps ▸ List.mem_cons_self
    exact Or.inl (Body.mem_regs.2 ⟨p, (Body.mem_positionsOf.1 hp).1⟩)

/-- Only locals of the body have a span under their new names. -/
theorem exists_of_liveSpans (h : b.Renamed ρ ν b') {m : Nat} {s : Span}
    (hs : b'.liveSpans[m]? = some s) : ∃ n, ν.loc n = m ∧ b.liveSpans[n]? = some s := by
  have hm : m ∈ b'.localNames := mem_localNames_of_liveSpans hs
  have hex : ∃ n ∈ b.localNames, ν.loc n = m := by
    rcases hm with hm | hm
    · rw [h.regs] at hm
      obtain ⟨r, hr, heq⟩ := List.mem_map.1 hm
      cases r with
      | upval k => cases heq
      | loc n => exact ⟨n, Or.inl hr, Reg.loc.inj heq⟩
    · obtain ⟨r, hr, heq⟩ := (h.captured _).1 hm
      cases r with
      | upval k => cases heq
      | loc n => exact ⟨n, Or.inr hr, Reg.loc.inj heq⟩
  obtain ⟨n, hn, rfl⟩ := hex
  exact ⟨n, rfl, by rw [← h.getElem?_liveSpans hn, hs]⟩

end Body.Renamed

/-! ### The scan -/

/-- A local with its span, under a new name. -/
def Live.rename (f : Nat → Nat) (l : Live) : Live := { l with id := f l.id }

/-- Names that keep their order keep the order in which spans are served. -/
theorem Live.rename_lt {f : Nat → Nat} {names : Set Nat} (hf : StrictMonoOn f names) {l m : Live}
    (hl : l.id ∈ names) (hm : m.id ∈ names) (hlt : Live.order l m = .lt) :
    Live.order (l.rename f) (m.rename f) = .lt := by
  have hid : compare (f l.id) (f m.id) = compare l.id m.id := by
    rcases Nat.lt_trichotomy l.id m.id with h | h | h
    · rw [Nat.compare_eq_lt.2 h, Nat.compare_eq_lt.2 (hf hl hm h)]
    · rw [h, Nat.compare_eq_eq.2 rfl, Nat.compare_eq_eq.2 rfl]
    · rw [Nat.compare_eq_gt.2 h, Nat.compare_eq_gt.2 (hf hm hl h)]
  simp only [Live.order, compareLex, compareOn, Live.rename, hid] at hlt ⊢
  exact hlt

namespace Scan

/-- Serving looks at spans only, so under new names it fails where it failed before. -/
theorem serveAll_rename_eq_none {f : Nat → Nat} {ls : List Live} {s : Scan}
    {homes homes' : Std.TreeMap Nat Operand} (h : serveAll ls s homes = none) :
    serveAll (ls.map (Live.rename f)) s homes' = none := by
  induction ls generalizing s homes homes' with
  | nil => cases h
  | cons l ls ih =>
    rw [serveAll] at h
    rw [List.map_cons, serveAll, Live.rename]
    split at h
    · next slot t hserve =>
      rw [hserve]
      exact ih h
    · next hserve => rw [hserve]

/-- A scan looks at spans only, so the same run serves the renamed ones. -/
theorem Serves.rename {s u : Scan} {xs : List (Live × Nat)} (h : Serves s xs u)
    (f : Nat → Nat) : Serves s (xs.map fun x ↦ (x.1.rename f, x.2)) u := by
  induction h with
  | nil s => exact .nil s
  | cons hserve hs ih => exact .cons hserve ih

/-- A recorded run is what the pass does under new names, too. -/
theorem Serves.serveAll_rename {f : Nat → Nat} {s u : Scan} {xs : List (Live × Nat)}
    (h : Serves s xs u) (homes : Std.TreeMap Nat Operand) :
    serveAll ((xs.map Prod.fst).map (Live.rename f)) s homes =
      some (u, assign (xs.map fun x ↦ (x.1.rename f, x.2)) homes) := by
  have hpass := (h.rename f).serveAll_eq homes
  rw [List.map_map] at hpass ⊢
  exact hpass

end Scan

namespace Body.Renamed

variable {ρ : ConstIndex → ConstIndex} {ν : Naming} {b b' : Body}

/-- **The same spans are served in the same order.** -/
theorem queue (h : b.Renamed ρ ν b') :
    Scan.queue b'.liveSpans = (Scan.queue b.liveSpans).map (Live.rename ν.loc) := by
  have hnames : ∀ l ∈ Scan.queue b.liveSpans, l.id ∈ b.localNames :=
    fun l hl ↦ mem_localNames_of_liveSpans (Scan.mem_queue.1 hl)
  refine toList_eq_of_mem_iff (List.pairwise_map.2 ?_) fun l ↦ ?_
  · refine List.Pairwise.imp_of_mem (fun {l m} hl hm hlt ↦ ?_) Std.TreeSet.ordered_toList
    exact Live.rename_lt h.loc_strictMonoOn (hnames l hl) (hnames m hm) hlt
  · rw [← Std.TreeSet.mem_toList, List.mem_map]
    refine Scan.mem_queue.trans ?_
    constructor
    · intro hl
      obtain ⟨n, hn, hs⟩ := h.exists_of_liveSpans hl
      exact ⟨⟨n, l.span⟩, Scan.mem_queue.2 hs, by rw [Live.rename, hn]⟩
    · rintro ⟨m, hm, rfl⟩
      rw [Live.rename, h.getElem?_liveSpans (hnames m hm), Scan.mem_queue.1 hm]

/-- A captured local keeps its cell, which is its rank among the captured ones. -/
theorem getElem?_cellHomes (h : b.Renamed ρ ν b') {n : Nat} (hn : n ∈ b.localNames) :
    b'.cellHomes[ν.loc n]? = b.cellHomes[n]? := by
  rw [cellHomes_eq_foldl, cellHomes_eq_foldl, h.toList_captured, List.zipIdx_map]
  refine getElem?_foldl_insertKeyed_map (fun x hx ↦ ?_) (fun _ _ ↦ rfl) rfl
  obtain ⟨r, i⟩ := x
  have hr : r ∈ b.captured :=
    Std.TreeSet.mem_toList.1 (List.mem_of_getElem? (List.mk_mem_zipIdx_iff_getElem?.1 hx))
  cases r with
  | upval k => exact ⟨nofun, nofun⟩
  | loc m =>
    show some (ν.loc m) = some (ν.loc n) ↔ some m = some n
    rw [Option.some_inj, Option.some_inj]
    exact h.loc_injOn.eq_iff (Or.inr hr) hn

/-- **The scan gives every local the register it had**, or fails as before. -/
theorem run (h : b.Renamed ρ ν b') :
    (Scan.run b.liveSpans b.cellHomes = none → Scan.run b'.liveSpans b'.cellHomes = none) ∧
      ∀ count homes, Scan.run b.liveSpans b.cellHomes = some (count, homes) →
        ∃ homes', Scan.run b'.liveSpans b'.cellHomes = some (count, homes') ∧
          ∀ n ∈ b.localNames, homes'[ν.loc n]? = homes[n]? := by
  rw [Scan.run, Scan.run, h.queue]
  constructor
  · intro hnone
    split at hnone
    · cases hnone
    · next hall => rw [Scan.serveAll_rename_eq_none hall]
  · intro count homes hsome
    split at hsome
    · next u homes₀ hall =>
      obtain ⟨rfl, rfl⟩ := Prod.mk.inj (Option.some.inj hsome)
      obtain ⟨xs, hxs, hserves, rfl⟩ := Scan.serveAll_eq_some hall
      refine ⟨_, by rw [← hxs, hserves.serveAll_rename], fun n hn ↦ ?_⟩
      refine getElem?_foldl_insertKeyed_map (fun x hx ↦ ?_) (fun _ _ ↦ rfl)
        (h.getElem?_cellHomes hn)
      have hqueue : x.1 ∈ Scan.queue b.liveSpans := hxs ▸ List.mem_map_of_mem hx
      show some (ν.loc x.1.id) = some (ν.loc n) ↔ some x.1.id = some n
      rw [Option.some_inj, Option.some_inj]
      exact h.loc_injOn.eq_iff (mem_localNames_of_liveSpans (Scan.mem_queue.1 hqueue)) hn
    · cases hsome

/-! ### Frames -/

/-- Upvalues are not renamed, so their number stays. -/
theorem upvalueCount (h : b.Renamed ρ ν b') : b'.upvalueCount = b.upvalueCount := by
  rw [upvalueCount_eq_foldl, upvalueCount_eq_foldl, h.upvalueNames, h.regs, List.foldl_map]
  congr 1
  funext n r
  cases r <;> rfl

/-- The first captured upvalue is the same one, since upvalues are not renamed. -/
theorem find?_isUpval (h : b.Renamed ρ ν b') :
    b'.captured.toList.find? Reg.isUpval = b.captured.toList.find? Reg.isUpval := by
  have hcomp : Reg.isUpval ∘ Reg.rename ν = Reg.isUpval := by
    funext r
    cases r <;> rfl
  rw [h.toList_captured, List.find?_map, hcomp]
  cases hfind : b.captured.toList.find? Reg.isUpval with
  | none => rfl
  | some r =>
    have hup := List.find?_some hfind
    cases r with
    | upval k => rfl
    | loc n => cases hup

/-- **Storage that cannot be chosen** cannot be chosen under other names either, and for the same
reason. -/
theorem allocate_error (h : b.Renamed ρ ν b') {stop : Stop}
    (ha : Frame.allocate b = .error stop) : Frame.allocate b' = .error stop := by
  rw [Frame.allocate] at ha ⊢
  rw [h.find?_isUpval, h.size_captured, h.upvalueCount, h.name]
  -- but for the scan the two choices are the same text now
  split at ha
  · exact ha
  · dsimp only at ha ⊢
    split at ha
    · next hcells => rwa [if_pos hcells]
    · next hcells =>
      rw [if_neg hcells]
      split at ha
      · next hup => rwa [if_pos hup]
      · next hup =>
        rw [if_neg hup]
        split at ha
        · next hrun =>
          rw [h.run.1 hrun]
          exact ha
        · cases ha

/-- **Storage under other names**: there is as much of each kind, and every register that the body
mentions has the same as before. -/
theorem allocate_ok (h : b.Renamed ρ ν b') {f : Frame} (ha : Frame.allocate b = .ok f) :
    ∃ f', Frame.allocate b' = .ok f' ∧ f.Renamed ν b f' := by
  obtain ⟨hcaptured, hcells, hup, count, hrun, hr, hc, hu⟩ := Frame.allocate_eq_ok ha
  obtain ⟨homes', hrun', hhomes⟩ := h.run.2 count f.homes hrun
  have hfind : b.captured.toList.find? Reg.isUpval = none := by
    refine List.find?_eq_none.2 fun r hr ↦ ?_
    rw [hcaptured r (Std.TreeSet.mem_toList.1 hr)]
    nofun
  refine ⟨⟨homes', f.registers, f.cells, f.upvalues⟩, ?_, rfl, rfl, rfl, fun r hmem ↦ ?_⟩
  · rw [Frame.allocate, h.find?_isUpval, hfind, h.size_captured, h.upvalueCount, hrun']
    dsimp only
    rw [if_neg (Nat.not_lt.2 hcells), if_neg (Nat.not_lt.2 hup), hr, hc, hu]
  · obtain ⟨o, ho, -⟩ := Frame.exists_operand ha hmem
    cases r with
    | upval k => rfl
    | loc n =>
      rw [ho]
      rw [Frame.operand] at ho
      rw [Reg.rename, Frame.operand, hhomes n (Or.inl hmem)]
      split at ho
      · exact ho
      · cases ho

end Body.Renamed

end RegisterBytecode
