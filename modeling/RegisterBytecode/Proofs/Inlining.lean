import Mathlib.Data.List.Forall2
import RegisterBytecode.Proofs.Meaning

/-!
# Carrying literals preserves meaning

Whether a load carries its literal or refers to the pool changes the length of the load, all offsets
and distances behind it, and which constants the pool holds at which slots. The main theorem is that
none of this shows in what code means: images of one program have the same functions, in the same
order, and the k-th functions of two images mean the same.

What a body means refers to other functions by their place among all functions. So it has to be
shown that these places do not depend on the configuration. Literals lead nowhere, so they can be
left out of a breadth-first order (`BreadthFirst.filter`), and what is left is one determined by the
references to bodies alone (`Program.filter_refs`).
-/

namespace RegisterBytecode

/-! ### Bodies among the constants -/

/-- Whether a constant is a body. -/
def Constant.isCode : Constant → Bool
  | .code _ => true
  | _ => false

/-- Whether the constant at an index is a body. -/
def Program.isCode (p : Program) (c : ConstIndex) : Bool := (p.get? c).any Constant.isCode

theorem Constant.isCarried_of_isCode {c : Constant} (h : c.isCode = true) (config : Config) :
    c.isCarried config = false := by
  cases c with
  | code body => rfl
  | _ => cases h

/-- A body that an instruction names is one that it refers to, and every configuration agrees. -/
theorem Instr.filter_poolRef? (p : Program) (config : Config) (i : Instr) :
    (i.poolRef? p config).filter p.isCode = i.constant?.filter p.isCode := by
  cases i with
  | load dst index =>
    rw [poolRef?, constant?]
    split
    · next hany =>
      obtain ⟨c, hc, hcarried⟩ := (Option.any_eq_true _ _).1 hany
      rw [Option.filter_none, Option.filter_some, if_neg]
      rw [Program.isCode, hc, Option.any_some]
      intro hcode
      rw [Constant.isCarried_of_isCode hcode] at hcarried
      cases hcarried
    · rfl
  | _ => rfl

/-- **References to bodies** do not depend on the configuration. -/
theorem Program.filter_refs (p : Program) (a b : Config) (c : ConstIndex) :
    (p.refs a c).filter p.isCode = (p.refs b c).filter p.isCode := by
  rw [refs, refs]
  cases p.get? c with
  | none => rfl
  | some k =>
    rw [Option.toList_some, List.flatMap_singleton, List.flatMap_singleton]
    cases k with
    | code body =>
      rw [Constant.refs, Constant.refs, List.filter_filterMap, List.filter_filterMap]
      refine List.filterMap_congr fun i _ ↦ ?_
      rw [i.filter_poolRef? p a, i.filter_poolRef? p b]
    | _ => rfl

/-- Only a body refers to anything. -/
theorem Program.isCode_of_refs_ne_nil {p : Program} {config : Config} {c : ConstIndex}
    (h : p.refs config c ≠ []) : p.isCode c = true := by
  obtain ⟨d, hd⟩ := List.exists_mem_of_ne_nil _ h
  obtain ⟨k, hk, hd⟩ := List.mem_flatMap.1 hd
  rw [isCode, Option.mem_toList.1 hk, Option.any_some]
  cases k with
  | code body => rfl
  | _ => cases hd

theorem Program.isCode_of_get? {p : Program} {c : ConstIndex} {body : Body}
    (h : p.get? c = some (.code body)) : p.isCode c = true := by
  rw [isCode, h]
  rfl

/-- **Images of one program have the same functions in the same order.** -/
theorem Session.Finished.filter_order_eq {program : Program} {a b : Config}
    {order order' : List ConstIndex} {s s' : Session} {m m' : Image} {main : Body}
    (h : Finished (Job.new program a) order s m) (h' : Finished (Job.new program b) order' s' m')
    (hmain : program.get? program.entry = some (.code main)) :
    order.filter program.isCode = order'.filter program.isCode := by
  have hroot := Program.isCode_of_get? hmain
  have ha := h.breadthFirst.filter hroot fun _ ↦ Program.isCode_of_refs_ne_nil
  have hb := h'.breadthFirst.filter hroot fun _ ↦ Program.isCode_of_refs_ne_nil
  rw [funext (program.filter_refs a b)] at ha
  exact ha.unique hb

/-! ### Functions of an image -/

/-- Corresponding elements correspond after those of one kind have been picked on both sides. -/
theorem forall₂_filterMap_filter {α β γ : Type} {R : α → β → Prop} {S : γ → β → Prop}
    {f : α → Option γ} {p : β → Bool} {xs : List α} {ys : List β} (h : List.Forall₂ R xs ys)
    (hpick : ∀ x y, R x y → (f x = none ∧ p y = false) ∨ ∃ z, f x = some z ∧ p y = true ∧ S z y) :
    List.Forall₂ S (xs.filterMap f) (ys.filter p) := by
  induction h with
  | nil => exact .nil
  | @cons x y xs ys hxy _ ih =>
    rcases hpick x y hxy with ⟨hf, hp⟩ | ⟨z, hf, hp, hz⟩
    · rw [List.filterMap_cons_none hf, List.filter_cons_of_neg (Bool.eq_false_iff.1 hp)]
      exact ih
    · rw [List.filterMap_cons_some hf, List.filter_cons_of_pos hp]
      exact .cons hz ih

/-- The place of an element among those that are kept. -/
theorem idxOf_filter {p : ConstIndex → Bool} {c : ConstIndex} {order : List ConstIndex}
    (hc : c ∈ order) (hp : p c = true) :
    (order.filter p).idxOf c = ((order.take (order.idxOf c)).filter p).length := by
  have hnot : c ∉ (order.take (order.idxOf c)).filter p := by
    intro hmem
    exact Nat.lt_irrefl _ ((List.mem_take_iff_idxOf_lt hc).1 (List.mem_of_mem_filter hmem))
  conv_lhs => rw [eq_take_append_cons_drop (List.getElem?_idxOf hc)]
  rw [List.filter_append, List.filter_cons_of_pos hp, List.idxOf_append_of_notMem hnot,
    List.idxOf_cons_self, Nat.add_zero]

namespace Image.Holds

variable {m : Image} {p : Program} {order : List ConstIndex}

/-- Entries and constants stand at the same slots. -/
theorem forall₂ (h : m.Holds p order) :
    List.Forall₂ (fun e c ↦ ∃ slot : Nat, m.pool[slot]? = some e ∧ order[slot]? = some c)
      m.pool.toList order := by
  refine List.forall₂_of_length_eq_of_get h.size fun slot hslot hslot' ↦ ⟨slot, ?_, ?_⟩
  · rw [← Array.getElem?_toList]
    exact List.getElem?_eq_getElem hslot
  · exact List.getElem?_eq_getElem hslot'

/-- An entry is a function exactly if its constant is a body. -/
theorem function?_eq (h : m.Holds p order) {slot : Nat} {e : Entry} {c : ConstIndex}
    (he : m.pool[slot]? = some e) (hc : order[slot]? = some c) :
    (e.function? = none ∧ p.isCode c = false) ∨
      ∃ f, e.function? = some f ∧ p.isCode c = true ∧ m.pool[slot]? = some (.function f) := by
  obtain ⟨k, e', hk, he', hrep⟩ := h.entries slot c hc
  obtain rfl : e = e' := Option.some.inj (he.symm.trans he')
  rw [Program.isCode, hk, Option.any_some]
  cases e with
  | function f =>
    cases k with
    | code body => exact Or.inr ⟨f, rfl, rfl, he⟩
    | _ => exact hrep.elim
  | _ =>
    refine Or.inl ⟨rfl, ?_⟩
    cases k with
    | code body => exact hrep.elim
    | _ => rfl

/-- **The functions of an image** are those of the bodies among its constants. -/
theorem functions (h : m.Holds p order) :
    List.Forall₂ (fun f c ↦ ∃ slot : Nat, m.pool[slot]? = some (.function f) ∧
      order[slot]? = some c) m.functions (order.filter p.isCode) := by
  refine forall₂_filterMap_filter h.forall₂ ?_
  rintro e c ⟨slot, he, hc⟩
  rcases h.function?_eq he hc with hnone | ⟨f, hf, hcode, hslot⟩
  · exact Or.inl hnone
  · exact Or.inr ⟨f, hf, hcode, slot, hslot, hc⟩

/-- **The place of a function** among all functions is that of its body among all bodies. -/
theorem ordinal_eq (h : m.Holds p order) {c : ConstIndex} (hc : c ∈ order)
    (hcode : p.isCode c = true) :
    m.ordinal (order.idxOf c) = (order.filter p.isCode).idxOf c := by
  have hbefore : List.Forall₂ (fun _ _ ↦ True)
      ((m.pool.toList.take (order.idxOf c)).filterMap Entry.function?)
      ((order.take (order.idxOf c)).filter p.isCode) := by
    refine forall₂_filterMap_filter (List.forall₂_take _ h.forall₂) ?_
    rintro e d ⟨slot, he, hd⟩
    rcases h.function?_eq he hd with hnone | ⟨f, hf, hd, -⟩
    · exact Or.inl hnone
    · exact Or.inr ⟨f, hf, hd, trivial⟩
  rw [ordinal, hbefore.length_eq, idxOf_filter hc hcode]

/-- The value at the slot of a constant is that of the constant. -/
theorem value?_eq (h : m.Holds p order) {c : ConstIndex} {k : Constant} (hc : c ∈ order)
    (hk : p.get? c = some k) :
    m.value? (order.idxOf c) = some (k.value ((order.filter p.isCode).idxOf c)) := by
  obtain ⟨k', e, hk', he, hrep⟩ := h.entries _ c (List.getElem?_idxOf hc)
  obtain rfl : k = k' := Option.some.inj (hk.symm.trans hk')
  rw [value?, he, Option.map_some, hrep.value_eq]
  cases k with
  | code body => rw [h.ordinal_eq hc (Program.isCode_of_get? hk)]
  | _ => rfl

end Image.Holds

/-! ### Bodies of finished images -/

namespace Session.Finished

variable {program : Program} {config : Config} {order : List ConstIndex} {s : Session} {m : Image}

/-- Every body among the constants of a finished image is well-formed. -/
theorem wellFormed_of_mem (h : Finished (Job.new program config) order s m) {main body : Body}
    (hmain : program.get? program.entry = some (.code main)) {c : ConstIndex} (hc : c ∈ order)
    (hbody : program.get? c = some (.code body)) : body.WellFormed program := by
  obtain ⟨k, hk, hreach⟩ := Program.reaches_of_asks hmain (h.built.reached c hc)
  exact h.wellFormed (hreach body (Option.some.inj (hk.symm.trans hbody)))

/-- **A jump of a segment** leads from its own place in the walk to that of its label. -/
theorem exists_target?_eq (h : Finished (Job.new program config) order s m) {n : Nat} {g : Segment}
    (hn : ((Job.new program config).segments order)[n]? = some g) {j k : Nat} {i : Instr}
    {l : Label} (hj : g.body.code[j]? = some i) (ht : i.target? = some l)
    (hk : g.body.BindsAt k l) {range : Range}
    (hrange : range =
      (Job.new program config).place order ((Job.new program config).segments order) n g) :
    ∃ o t, (m.offsets range.start range.stop)[g.body.readingsBefore program config order.idxOf
        g.frame.home j]? = some o ∧
      m.target? o = some t ∧
      (m.offsets range.start range.stop)[g.body.landing program l]? = some t := by
  have hsound := h.built.laid.sound g (List.mem_of_getElem? hn)
  have hrest : (Job.new program config).codeOps order g.frame (g.body.code.toList.drop j) ++
      padding (endsInLabel g.body.code.toList) ≠ [] := by
    obtain ⟨op, rest, -, -, hops⟩ := (Job.new program config).segmentOps_of_target? order hj ht
    rw [Job.segmentOps_eq j] at hops
    rw [List.append_cancel_left hops]
    exact List.cons_ne_nil op rest
  have hjump := h.getElem?_offsets_segment hn hrest
  have hland := h.getElem?_offsets_segment hn ((Job.new program config).rest_ne_nil order hk)
  rw [← hrange] at hjump hland
  rw [← Body.landing_eq hsound.unique hk] at hland
  rw [← g.body.readingsBefore_clamped program config]
  exact ⟨_, _, hjump, h.target?_segment hn hj ht hk, hland⟩

/-- **A compiled body means what its body says.** -/
theorem meanings_eq (h : Finished (Job.new program config) order s m) {main : Body}
    (hmain : program.get? program.entry = some (.code main)) {slot : Nat} {f : Function}
    {c : ConstIndex} {body : Body} {frame : Frame} (hf : m.pool[slot]? = some (.function f))
    (hc : order[slot]? = some c) (hbody : program.get? c = some (.code body))
    (hframe : Frame.allocate body = .ok frame) :
    m.meanings f =
      (body.meanings program (order.filter program.isCode).idxOf frame.home).map some := by
  -- the segment of this entry is the body with its storage
  obtain ⟨c', ⟨body', frame'⟩, n, hc', hseg, hn, hrange⟩ := h.exists_segment hf
  obtain rfl : c = c' := Option.some.inj (hc.symm.trans hc')
  obtain ⟨hbody', hframe'⟩ := Job.segment?_eq_some_iff.1 hseg
  obtain rfl : body = body' := Constant.code.inj (Option.some.inj (hbody.symm.trans hbody'))
  obtain rfl : frame = frame' := Except.ok.inj (hframe.symm.trans hframe')
  have hsound := h.built.laid.sound _ (List.mem_of_getElem? hn)
  have hwf := h.wellFormed_of_mem hmain (List.mem_of_getElem? hc) hbody
  have hread : (m.offsets f.range.start f.range.stop).map m.read? =
      (body.readings program config order.idxOf frame.home).map some := by
    rw [hrange, ← body.readings_clamped program config]
    exact h.map_read?_offsets_segment hn
  refine Image.map_meaning?_of_map_read? hread hwf.instrs ?_ ?_
  · intro i hi index k href hk
    obtain ⟨d, hd, hmem⟩ := hsound.supplied i hi
    rw [Job.eq_poolRef?_of_demand hd, href] at hmem
    exact h.holds.value?_eq (hmem index rfl) hk
  · intro j i l hj ht
    have hi : i ∈ body.code.toList := Array.mem_toList_iff.2 (Array.mem_of_getElem? hj)
    obtain ⟨k, hk⟩ := hwf.targets i hi l ht
    exact h.exists_target?_eq hn hj ht hk hrange

/-- The pool has a function for every body, and no other. -/
theorem length_functions (h : Finished (Job.new program config) order s m) :
    m.functions.length = (order.filter program.isCode).length :=
  h.holds.functions.length_eq

/-- **The k-th function of an image** is that of the k-th body among its constants. -/
theorem exists_function (h : Finished (Job.new program config) order s m) {main : Body}
    (hmain : program.get? program.entry = some (.code main)) {k : Nat} {f : Function}
    (hf : m.functions[k]? = some f) :
    ∃ c body frame, (order.filter program.isCode)[k]? = some c ∧
      program.get? c = some (.code body) ∧ Frame.allocate body = .ok frame ∧
      f = ⟨body.name, f.range, frame.registers, frame.cells, frame.upvalues, body.upvalueNames⟩ ∧
      m.meanings f =
        (body.meanings program (order.filter program.isCode).idxOf frame.home).map some := by
  obtain ⟨hlt, hget⟩ := List.getElem?_eq_some_iff.1 hf
  have hlt' : k < (order.filter program.isCode).length := h.length_functions ▸ hlt
  obtain ⟨slot, hslot, hc⟩ := h.holds.functions.get hlt hlt'
  rw [List.get_eq_getElem, hget] at hslot
  obtain ⟨constant, e, hconstant, he, hrep⟩ := h.holds.entries slot _ hc
  obtain rfl : .function f = e := Option.some.inj (hslot.symm.trans he)
  cases constant with
  | code body =>
    obtain ⟨hname, hnames, frame, hframe, hregisters, hcells, hupvalues⟩ := hrep
    refine ⟨_, body, frame, List.getElem?_eq_getElem hlt', hconstant, hframe, ?_,
      h.meanings_eq hmain hslot hc hconstant hframe⟩
    rw [← hname, ← hnames, ← hregisters, ← hcells, ← hupvalues]
  | _ => exact hrep.elim

end Session.Finished

/-! ### The main theorem -/

/-- **Carrying literals preserves meaning.** Images of one program, whatever the configurations,
have the same number of functions; the k-th functions agree in name, counts and names of upvalues,
and their code has the same meanings. -/
theorem Image.meanings_agree_of_compile {program : Program} {configA configB : Config} {a b : Image}
    (ha : compile program configA = .ok a) (hb : compile program configB = .ok b) :
    a.functions.length = b.functions.length ∧
      ∀ (k : Nat) (f g : Function), a.functions[k]? = some f → b.functions[k]? = some g →
        f.name = g.name ∧ f.registers = g.registers ∧ f.cells = g.cells ∧
          f.upvalues = g.upvalues ∧ f.upvalueNames = g.upvalueNames ∧
          ∃ ms : List Meaning, a.meanings f = ms.map some ∧ b.meanings g = ms.map some := by
  obtain ⟨main, hmain⟩ := exists_entry_of_compile ha
  obtain ⟨orderA, sA, hA⟩ := compile_eq_ok ha
  obtain ⟨orderB, sB, hB⟩ := compile_eq_ok hb
  have hsame := hA.filter_order_eq hB hmain
  refine ⟨by rw [hA.length_functions, hsame, hB.length_functions], fun k f g hf hg ↦ ?_⟩
  obtain ⟨c, body, frame, hc, hbody, hframe, hfA, hmA⟩ := hA.exists_function hmain hf
  obtain ⟨c', body', frame', hc', hbody', hframe', hfB, hmB⟩ := hB.exists_function hmain hg
  rw [hsame] at hc hmA
  obtain rfl : c = c' := Option.some.inj (hc.symm.trans hc')
  obtain rfl : body = body' := Constant.code.inj (Option.some.inj (hbody.symm.trans hbody'))
  obtain rfl : frame = frame' := Except.ok.inj (hframe.symm.trans hframe')
  rw [hfA, hfB]
  exact ⟨rfl, rfl, rfl, rfl, rfl, _, hfA ▸ hmA, hfB ▸ hmB⟩

/-- Two bodies that load literals of every size, each other, and jump over their loads. -/
def Program.literals : Program where
  constants := #[
    .code
      { name := "outer"
        code := #[.load (.loc 0) 1, .branch (.loc 0) 5 false, .load (.loc 1) 2, .load (.loc 2) 3,
          .label 5, .closure (.loc 3) 6 [.loc 0], .load (.loc 4) 4, .load (.loc 5) 6]
        captured := Std.TreeSet.ofList [Reg.loc 0] },
    .int 7, .int 2147483648, .str "fifteen letters", .str "sixteen letters!", .int (-2147483648),
    .code
      { name := "inner"
        code := #[.label 5, .load (.loc 0) 5, .load (.loc 1) 0, .load (.loc 2) 2, .jump 5] }]

/-- With literals in loads the pool has four entries, and without them seven; the second functions
stand at different places and mean the same. -/
theorem Image.meanings_agree_literals :
    ∃ (a b : Image) (f g : Function) (ms : List Meaning),
      compile Program.literals {} = .ok a ∧
      compile Program.literals { inlineLiterals := false } = .ok b ∧
      a.pool.size = 4 ∧ b.pool.size = 7 ∧ a.functions.length = b.functions.length ∧
      a.functions[1]? = some f ∧ b.functions[1]? = some g ∧ f.name = g.name ∧
      f.range.start = 58 ∧ g.range.start = 42 ∧
      a.meanings f = ms.map some ∧ b.meanings g = ms.map some := by
  have hevalA : (compile Program.literals {}).map (fun a ↦ (a.pool.size,
      a.functions[1]?.map (·.range.start))) = .ok (4, some 58) := by decide +kernel
  have hevalB : (compile Program.literals { inlineLiterals := false }).map (fun b ↦ (b.pool.size,
      b.functions[1]?.map (·.range.start))) = .ok (7, some 42) := by decide +kernel
  obtain ⟨a, ha, hpoolA⟩ := exists_of_map_eq_ok hevalA
  obtain ⟨b, hb, hpoolB⟩ := exists_of_map_eq_ok hevalB
  obtain ⟨hsizeA, hstartA⟩ := Prod.mk.inj hpoolA
  obtain ⟨hsizeB, hstartB⟩ := Prod.mk.inj hpoolB
  obtain ⟨f, hf, hstartA⟩ := Option.map_eq_some_iff.1 hstartA
  obtain ⟨g, hg, hstartB⟩ := Option.map_eq_some_iff.1 hstartB
  obtain ⟨hlength, hall⟩ := meanings_agree_of_compile ha hb
  obtain ⟨hname, -, -, -, -, ms, hmA, hmB⟩ := hall 1 f g hf hg
  exact ⟨a, b, f, g, ms, ha, hb, hsizeA, hsizeB, hlength, hf, hg, hname, hstartA, hstartB, hmA, hmB⟩

end RegisterBytecode
