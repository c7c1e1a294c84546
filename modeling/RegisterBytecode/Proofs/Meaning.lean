import Mathlib.Algebra.Ring.Nat
import RegisterBytecode.Proofs.Pool

/-!
# What compiled code means

Two images can differ in every offset, slot and distance and still do the same. `Image.meaning?`
reads an instruction as far as its effect goes: a load is the **value** it puts into its operand,
wherever the value is kept; a closure is made of a function, known by its place among the functions
of the image; and a jump leads to a place in the walk over its body. No slot and no offset is left.

Over against this stands what the instructions of a body mean by themselves (`Body.meanings`), which
refers to neither an image nor a configuration. That a walk over code finds just these meanings is
`Image.map_meaning?_of_map_read?`. It needs three things: the walk reads the instructions, the pool
holds the values of the constants that they refer to, and jumps land on their labels.
-/

namespace RegisterBytecode

/-! ### Values and meanings -/

/-- What a load puts into its operand. -/
inductive Value where
  | nil
  | bool (value : Bool)
  | int (value : Int)
  | float (bits : UInt64)
  /-- The bytes of a text. -/
  | text (bytes : List UInt8)
  /-- The function with a given place among all functions. -/
  | function (ordinal : Nat)
  deriving DecidableEq, Repr

/-- An instruction as far as its effect goes. -/
inductive Meaning where
  /-- Load a value. -/
  | load (regs : List Operand) (value : Value)
  /-- Make a closure of the function with a given place. -/
  | closure (regs : List Operand) (ordinal : Nat)
  /-- Jump, perhaps on a condition, to the instruction with a given place in the body. -/
  | jump (opcode : Opcode) (regs : List Operand) (target : Nat)
  /-- Any other instruction is what it is read as. -/
  | other (reading : Reading)
  deriving DecidableEq, Repr

/-- The value of a pool entry, where `ordinal` is its place if it is a function. -/
def Entry.value (ordinal : Nat) : Entry → Value
  | .nil => .nil
  | .bool b => .bool b
  | .int n => .int n.toInt
  | .float bits => .float bits
  | .str t => .text t.toUTF8.data.toList
  | .function _ => .function ordinal

/-- The value of a constant, where `ordinal` is its place if it is a function. -/
def Constant.value (ordinal : Nat) : Constant → Value
  | .nil => .nil
  | .bool b => .bool b
  | .int n => .int n.toInt
  | .float bits => .float bits
  | .str t => .text t.toUTF8.data.toList
  | .code _ => .function ordinal

/-- A compiled constant has the value of the constant. -/
theorem Entry.Represents.value_eq {e : Entry} {c : Constant} (h : e.Represents c) (ordinal : Nat) :
    e.value ordinal = c.value ordinal := by
  rw [Entry.Represents.eq_def] at h
  split at h
  case h_1 => rfl
  case h_6 => rfl
  case h_7 => exact h.elim
  all_goals rw [h, Entry.value, Constant.value]

/-! ### In an image -/

namespace Image

/-- The number of functions before a slot. -/
def ordinal (m : Image) (slot : Nat) : Nat :=
  ((m.pool.toList.take slot).filterMap Entry.function?).length

/-- The value at a slot. -/
def value? (m : Image) (slot : Nat) : Option Value :=
  (m.pool[slot]?).map (Entry.value (m.ordinal slot))

/-- What a reading means that stands among instructions at `offsets` and, if it is a jump, leads to
`target`. Only loads carry integers and texts, and only loads and closures refer to the pool. -/
def resolve? (m : Image) (offsets : List Nat) (target : Option Nat) (x : Reading) :
    Option Meaning :=
  match x.field with
  | .int n => some (.load x.regs (.int n))
  | .text bytes => some (.load x.regs (.text bytes))
  | .pool slot =>
    (m.value? slot).bind fun value ↦
      if x.opcode = .loadClosure then
        match value with
        | .function ordinal => some (.closure x.regs ordinal)
        | _ => none
      else some (.load x.regs value)
  | .distance =>
    target.bind fun t ↦
      if t ∈ offsets then some (.jump x.opcode x.regs (offsets.idxOf t)) else none
  | .none => some (.other x)
  | .byte _ => some (.other x)

/-- The meaning of the instruction at an offset, one of `offsets`. -/
def meaning? (m : Image) (offsets : List Nat) (offset : Nat) : Option Meaning :=
  (m.read? offset).bind (m.resolve? offsets (m.target? offset))

/-- The meanings of the instructions of a compiled body, in order. -/
def meanings (m : Image) (f : Function) : List (Option Meaning) :=
  (m.offsets f.range.start f.range.stop).map (m.meaning? (m.offsets f.range.start f.range.stop))

/-- A walk never comes to an offset twice. -/
theorem nodup_offsets (m : Image) (start stop : Nat) : (m.offsets start stop).Nodup := by
  suffices h : (m.offsets start stop).Nodup ∧ ∀ o ∈ m.offsets start stop, start ≤ o from h.1
  fun_induction offsets m start stop with
  | case1 start hlt ih =>
    split
    · next n hn =>
      obtain ⟨hnodup, hle⟩ := ih n hn
      have hpos := lengthAt?_pos hn
      refine ⟨List.nodup_cons.2 ⟨fun hmem ↦ ?_, hnodup⟩, List.forall_mem_cons.2 ⟨Nat.le_refl _, ?_⟩⟩
      · have := hle start hmem
        omega
      · intro o ho
        exact Nat.le_trans (Nat.le_add_right start n) (hle o ho)
    · exact ⟨List.nodup_singleton start, List.forall_mem_singleton.2 (Nat.le_refl _)⟩
  | case2 start hlt => exact ⟨List.nodup_nil, List.forall_mem_nil _⟩

/-- Where a walk comes to an offset. -/
theorem idxOf_offsets {m : Image} {start stop n o : Nat}
    (h : (m.offsets start stop)[n]? = some o) : (m.offsets start stop).idxOf o = n := by
  obtain ⟨hlt, rfl⟩ := List.getElem?_eq_some_iff.1 h
  exact (m.nodup_offsets start stop).idxOf_getElem n hlt

end Image

/-! ### In a program -/

/-- The number of machine instructions that an instruction is read as. -/
def Instr.width (p : Program) : Instr → Nat
  | .load _ index => (p.get? index).toList.length
  | .closure _ _ captures => captures.length + 1
  | .label _ => 0
  | .receive dsts etc => dsts.length + etc.toList.length
  | _ => 1

/-- The place of a label: the number of machine instructions before it. -/
def Body.landing (p : Program) (b : Body) (l : Label) : Nat :=
  ((b.code.toList.take (b.labelPositions.getD l 0)).map (Instr.width p)).sum

section Meanings

variable (p : Program) (ordinal : ConstIndex → Nat) (landing : Label → Nat) (home : Reg → Operand)

/-- What an instruction means, where `ordinal` gives the places of functions, `landing` those of
labels and `home` the storage of registers. -/
def Instr.meanings : Instr → List Meaning
  | .load dst index => (p.get? index).toList.map fun c ↦ .load [home dst] (c.value (ordinal index))
  | .closure dst index captures =>
    .closure [home dst] (ordinal index)
      :: captures.map fun src ↦ .other ⟨.bindUpvalue, [home dst, home src], .none⟩
  | i =>
    -- without a constant, what is read depends on neither the configuration nor the slots
    (i.readings p {} (fun _ ↦ 0) home).map fun x ↦
      match i.target? with
      | some l => .jump x.opcode x.regs (landing l)
      | none => .other x

/-- What a body means. -/
def Body.meanings (b : Body) : List Meaning :=
  b.code.toList.flatMap (Instr.meanings p ordinal (b.landing p) home) ++
    if b.EndsInLabel then [.other ⟨.nop, [], .none⟩] else []

end Meanings

section Readings

variable {p : Program} {config : Config} {slot ordinal : ConstIndex → Nat}
  {landing : Label → Nat} {home : Reg → Operand} {i : Instr}

/-- How many operations an instruction leaves depends neither on slots nor on homes nor on the
configuration. -/
theorem Instr.length_readings (i : Instr) : (i.readings p config slot home).length = i.width p := by
  cases i with
  | load dst index => exact List.length_map _
  | closure dst index captures => exact congrArg (· + 1) (List.length_map _)
  | push src spread => cases spread <;> rfl
  | branch cond target negate => cases negate <;> rfl
  | call tail callee => cases tail <;> rfl
  | continuation tail dst => cases tail <;> rfl
  | receive dsts etc =>
    cases etc with
    | none => exact List.length_map _
    | some etc =>
      rw [readings, List.length_append, List.length_map]
      rfl
  | _ => rfl

theorem Instr.width_of_target? {l : Label} (h : i.target? = some l) : i.width p = 1 := by
  cases i with
  | jump target => rfl
  | branch cond target negate => rfl
  | _ => cases h

/-- What is read depends on the configuration and on slots only where a constant is named. -/
theorem Instr.readings_eq (h : i.constant? = none) :
    i.readings p config slot home = i.readings p {} (fun _ ↦ 0) home := by
  cases i with
  | load dst index => cases h
  | closure dst index captures => cases h
  | push src spread => cases spread <;> rfl
  | branch cond target negate => cases negate <;> rfl
  | call tail callee => cases tail <;> rfl
  | continuation tail dst => cases tail <;> rfl
  | receive dsts etc => cases etc <;> rfl
  | _ => rfl

/-- An instruction that refers to no constant means what it reads, and a jump its landing instead of
a distance. -/
theorem Instr.meanings_eq (h : i.constant? = none) :
    i.meanings p ordinal landing home = (i.readings p {} (fun _ ↦ 0) home).map fun x ↦
      match i.target? with
      | some l => .jump x.opcode x.regs (landing l)
      | none => .other x := by
  cases i with
  | load dst index => cases h
  | closure dst index captures => cases h
  | _ => rfl

theorem Instr.length_meanings (i : Instr) :
    (i.meanings p ordinal landing home).length = i.width p := by
  cases i with
  | load dst index => exact List.length_map _
  | closure dst index captures => exact congrArg (· + 1) (List.length_map _)
  | _ => rw [meanings_eq rfl, List.length_map, length_readings]

/-- A constant that its load carries is the value that the load means. -/
theorem Constant.resolve?_loadReading {c : Constant} (h : c.isCarried config = true) (m : Image)
    (offsets : List Nat) (target : Option Nat) (dst : Operand) (k n : Nat) :
    m.resolve? offsets target (c.loadReading config dst k) = some (.load [dst] (c.value n)) := by
  cases c with
  | int v =>
    rw [isCarried, Bool.and_eq_true, decide_eq_true_eq] at h
    rw [loadReading, if_pos h]
    rfl
  | str t =>
    rw [isCarried, Bool.and_eq_true, decide_eq_true_eq] at h
    rw [loadReading, if_pos h]
    rfl
  | _ => cases h

variable {m : Image} {offsets : List Nat} {target : Option Nat} {k : Nat} {x : Reading}

/-- A load means the same whether the instruction carries its constant or refers to it. -/
theorem Instr.exists_resolve?_load {dst : Reg} {index : ConstIndex} {c : Constant}
    (hx : ((Instr.load dst index).readings p config slot home)[k]? = some x)
    (hc : p.get? index = some c)
    (href : c.isCarried config = false → m.value? (slot index) = some (c.value (ordinal index))) :
    ∃ y, ((Instr.load dst index).meanings p ordinal landing home)[k]? = some y ∧
      m.resolve? offsets target x = some y := by
  rw [readings, hc] at hx
  rw [meanings, hc]
  obtain ⟨hk, hx⟩ := List.getElem?_eq_some_iff.1 hx
  obtain rfl : k = 0 := Nat.lt_one_iff.1 hk
  obtain rfl : c.loadReading config (home dst) (slot index) = x := hx
  refine ⟨_, rfl, ?_⟩
  cases hcarried : c.isCarried config with
  | true => exact c.resolve?_loadReading hcarried m offsets target _ _ _
  | false =>
    rw [Constant.loadReading_of_isCarried_eq_false hcarried, Image.resolve?]
    dsimp only
    rw [href hcarried]
    rfl

/-- A closure means the function that its slot leads to. -/
theorem Instr.exists_resolve?_closure {dst : Reg} {index : ConstIndex} {captures : List Reg}
    (hx : ((Instr.closure dst index captures).readings p config slot home)[k]? = some x)
    (href : m.value? (slot index) = some (.function (ordinal index))) :
    ∃ y, ((Instr.closure dst index captures).meanings p ordinal landing home)[k]? = some y ∧
      m.resolve? offsets target x = some y := by
  cases k with
  | zero =>
    obtain rfl := Option.some.inj hx
    refine ⟨_, rfl, ?_⟩
    rw [Image.resolve?]
    dsimp only
    rw [href]
    rfl
  | succ k =>
    rw [readings, List.getElem?_cons_succ, List.getElem?_map] at hx
    obtain ⟨src, hsrc, rfl⟩ := Option.map_eq_some_iff.1 hx
    refine ⟨.other ⟨.bindUpvalue, [home dst, home src], .none⟩, ?_, rfl⟩
    rw [meanings, List.getElem?_cons_succ, List.getElem?_map, hsrc, Option.map_some]

/-- Any other instruction means what it reads, and a jump the place where it lands. -/
theorem Instr.exists_resolve?_of_constant?_eq_none (hconst : i.constant? = none)
    (hx : (i.readings p config slot home)[k]? = some x)
    (hjump : ∀ l, i.target? = some l →
      ∃ t, target = some t ∧ t ∈ offsets ∧ offsets.idxOf t = landing l) :
    ∃ y, (i.meanings p ordinal landing home)[k]? = some y ∧
      m.resolve? offsets target x = some y := by
  have hfield := field_of_mem_readings (List.mem_of_getElem? hx)
  rw [readings_eq hconst] at hx
  rw [meanings_eq hconst, List.getElem?_map, hx]
  refine ⟨_, rfl, ?_⟩
  rcases hfield with ⟨_, _, rfl⟩ | ⟨_, _, _, rfl⟩ | ⟨hfield, htarget⟩ | ⟨hfield, htarget⟩
  · cases hconst
  · cases hconst
  · obtain ⟨l, hl⟩ := Option.isSome_iff_exists.1 htarget
    obtain ⟨t, rfl, hmem, hplace⟩ := hjump l hl
    rw [Image.resolve?, hfield, hl]
    dsimp only
    rw [Option.bind_some, if_pos hmem, hplace]
  · rw [htarget]
    rcases hfield with hfield | ⟨b, hfield⟩ <;> rw [Image.resolve?, hfield]

/-- **One instruction is read as what it means**, given the values of what it refers to and the
place to which it jumps. -/
theorem Instr.exists_resolve?_eq (hx : (i.readings p config slot home)[k]? = some x)
    (hwf : i.WellFormed p)
    (href : ∀ index c, i.poolRef? p config = some index → p.get? index = some c →
      m.value? (slot index) = some (c.value (ordinal index)))
    (hjump : ∀ l, i.target? = some l →
      ∃ t, target = some t ∧ t ∈ offsets ∧ offsets.idxOf t = landing l) :
    ∃ y, (i.meanings p ordinal landing home)[k]? = some y ∧
      m.resolve? offsets target x = some y := by
  cases i with
  | load dst index =>
    obtain ⟨c, hc⟩ := hwf
    refine exists_resolve?_load hx hc fun hcarried ↦ href index c ?_ hc
    rw [poolRef?, hc, Option.any_some, hcarried, if_neg Bool.false_ne_true]
  | closure dst index captures =>
    obtain ⟨body, hbody⟩ := hwf
    exact exists_resolve?_closure hx (href index _ rfl hbody)
  | _ => exact exists_resolve?_of_constant?_eq_none rfl hx hjump

end Readings

/-! ### A walk over a body -/

namespace Body

variable {p : Program} {config : Config} {slot ordinal : ConstIndex → Nat}
  {home : Reg → Operand} {b : Body}

/-- The number of machine instructions before a position, which depends on neither the
configuration nor the slots. -/
theorem readingsBefore_eq_sum (k : Nat) :
    b.readingsBefore p config slot home k = ((b.code.toList.take k).map (Instr.width p)).sum := by
  rw [readingsBefore, List.length_flatMap]
  exact congrArg List.sum (List.map_congr_left fun i _ ↦ i.length_readings)

/-- A jump lands behind the readings of what precedes its label. -/
theorem landing_eq (hu : b.UniqueLabels) {k : Nat} {l : Label} (hk : b.BindsAt k l) :
    b.landing p l = b.readingsBefore p config slot home k := by
  rw [landing, Std.TreeMap.getD_eq_getD_getElem?, hu.getElem?_labelPositions hk, Option.getD_some,
    readingsBefore_eq_sum]

theorem length_flatMap_meanings (config : Config) (slot ordinal : ConstIndex → Nat)
    (landing : Label → Nat) (is : List Instr) :
    (is.flatMap (Instr.meanings p ordinal landing home)).length =
      (is.flatMap (Instr.readings p config slot home)).length := by
  rw [List.length_flatMap, List.length_flatMap]
  refine congrArg List.sum (List.map_congr_left fun i _ ↦ ?_)
  rw [i.length_meanings, i.length_readings]

theorem length_meanings (config : Config) (slot ordinal : ConstIndex → Nat) :
    (b.meanings p ordinal home).length = (b.readings p config slot home).length := by
  rw [meanings, readings, List.length_append, List.length_append,
    length_flatMap_meanings config slot]
  congr 1
  split <;> rfl

/-- A step of a walk behind all instructions is the padding. -/
theorem getElem?_meanings_of_le {n : Nat} {x : Reading} (ordinal : ConstIndex → Nat)
    (hx : (b.readings p config slot home)[n]? = some x)
    (hn : (b.code.toList.flatMap (Instr.readings p config slot home)).length ≤ n) :
    x.field = .none ∧ (b.meanings p ordinal home)[n]? = some (.other x) := by
  rw [readings, List.getElem?_append_right hn] at hx
  rw [← length_flatMap_meanings config slot ordinal (b.landing p)] at hn hx
  rw [meanings, List.getElem?_append_right hn]
  split at hx
  · next hend =>
    obtain ⟨hlt, hx⟩ := List.getElem?_eq_some_iff.1 hx
    have hzero := Nat.lt_one_iff.1 hlt
    rw [if_pos hend, hzero]
    simp only [hzero] at hx
    rw [← hx]
    exact ⟨rfl, rfl⟩
  · cases hx

end Body

/-- **A walk over code finds what its body means**, if it reads the body's instructions, the pool
holds the values that they refer to, and jumps land on their labels. -/
theorem Image.map_meaning?_of_map_read? {m : Image} {p : Program} {config : Config}
    {slot ordinal : ConstIndex → Nat} {home : Reg → Operand} {b : Body} {start stop : Nat}
    (hread : (m.offsets start stop).map m.read? = (b.readings p config slot home).map some)
    (hwf : ∀ i ∈ b.code.toList, i.WellFormed p)
    (href : ∀ i ∈ b.code.toList, ∀ index c, i.poolRef? p config = some index →
      p.get? index = some c → m.value? (slot index) = some (c.value (ordinal index)))
    (hjump : ∀ (j : Nat) (i : Instr) (l : Label), b.code[j]? = some i → i.target? = some l →
      ∃ o t, (m.offsets start stop)[b.readingsBefore p config slot home j]? = some o ∧
        m.target? o = some t ∧ (m.offsets start stop)[b.landing p l]? = some t) :
    (m.offsets start stop).map (m.meaning? (m.offsets start stop)) =
      (b.meanings p ordinal home).map some := by
  have hlength : (m.offsets start stop).length = (b.readings p config slot home).length := by
    rw [← List.length_map (f := m.read?), hread, List.length_map]
  refine List.ext_getElem? fun n ↦ ?_
  rw [List.getElem?_map, List.getElem?_map]
  cases hx : (b.readings p config slot home)[n]? with
  | none =>
    have hle := List.getElem?_eq_none_iff.1 hx
    rw [List.getElem?_eq_none (hlength ▸ hle),
      List.getElem?_eq_none (Body.length_meanings config slot ordinal ▸ hle)]
    rfl
  | some x =>
    obtain ⟨o, ho, hox⟩ := exists_offset_of_readings hread hx
    rw [ho, Option.map_some, meaning?, hox, Option.bind_some]
    by_cases hn : (b.code.toList.flatMap (Instr.readings p config slot home)).length ≤ n
    · obtain ⟨hfield, hy⟩ := Body.getElem?_meanings_of_le ordinal hx hn
      rw [hy, resolve?, hfield, Option.map_some]
    · rw [Body.readings, List.getElem?_append_left (Nat.not_le.1 hn)] at hx
      obtain ⟨j, i, k, hj, hk, hsum⟩ := exists_of_getElem?_flatMap hx
      have hi := List.mem_of_getElem? hj
      have htarget : ∀ l, i.target? = some l → ∃ t, m.target? o = some t ∧
          t ∈ m.offsets start stop ∧ (m.offsets start stop).idxOf t = b.landing p l := by
        intro l hl
        obtain ⟨o', t, ho', ht, hland⟩ := hjump j i l (by rwa [← Array.getElem?_toList]) hl
        -- a jump is a single step, so this is the one that the walk is at
        have hlt := (List.getElem?_eq_some_iff.1 hk).1
        rw [i.length_readings, Instr.width_of_target? hl] at hlt
        obtain rfl : k = 0 := Nat.lt_one_iff.1 hlt
        obtain rfl : o = o' := Option.some.inj (ho.symm.trans (hsum ▸ ho'))
        exact ⟨t, ht, List.mem_of_getElem? hland, idxOf_offsets hland⟩
      obtain ⟨y, hy, hresolve⟩ := Instr.exists_resolve?_eq hk (hwf i hi) (href i hi) htarget
      have hplace := getElem?_flatMap_of_take hj hy
      rw [Body.length_flatMap_meanings config slot, ← hsum] at hplace
      rw [Body.meanings, List.getElem?_append_left (List.getElem?_eq_some_iff.1 hplace).1, hplace,
        hresolve, Option.map_some]

end RegisterBytecode
