import Mathlib.Data.List.Induction
import RegisterBytecode.Proofs.Code.Lowered

/-!
# Laying code

What a body leaves in a stream does not depend on how its constants got their slots. So it is
stated for streams alone: `Stream.lay` runs over instructions with their lines, binds labels and
emits what `ops` makes of every other instruction. Nothing can fail here.

Three views of the result are enough for the layout of code: its chunks (`Lays.lay`), where its
labels are (`getElem?_labels_lay`) and whether a label stands at its very end
(`LabelsBehind.labelAtEnd_lay`). Each is an induction over the instructions from the last one,
because each step only looks at the stream that the earlier ones have left.
-/

namespace RegisterBytecode

/-- The order on label keys tells them apart, so a look-up finds the key that was inserted. -/
theorem LabelKey.order_eq_eq {a b : LabelKey} : LabelKey.order a b = .eq ↔ a = b := by
  rw [order, compareLex_eq_eq, compareOn, compareOn, Nat.compare_eq_eq, Nat.compare_eq_eq,
    Prod.ext_iff]

/-! ### Code that ends in a label -/

/-- Whether a label stands behind the last instruction that leaves bytes: there is one among the
silent instructions at the end. -/
def endsInLabel (is : List Instr) : Bool :=
  (is.reverse.takeWhile Instr.silent).any fun i ↦ i.binds?.isSome

/-- A label leaves no bytes. -/
theorem silent_of_binds? {i : Instr} {l : Label} (h : i.binds? = some l) : i.silent = true := by
  obtain rfl := Body.binds?_eq_some_iff.1 h
  rfl

/-- One more instruction decides anew whether the code ends in a label, unless it is silent and no
label itself. -/
theorem endsInLabel_concat (is : List Instr) (i : Instr) :
    endsInLabel (is ++ [i]) = (i.silent && (i.binds?.isSome || endsInLabel is)) := by
  rw [endsInLabel, List.reverse_concat, List.takeWhile_cons]
  cases i.silent with
  | true => rfl
  | false => rfl

/-- A list around one of its elements. -/
theorem eq_take_append_cons_drop {α : Type} {xs : List α} {k : Nat} {x : α}
    (h : xs[k]? = some x) : xs = xs.take k ++ x :: xs.drop (k + 1) := by
  obtain ⟨hlt, rfl⟩ := List.getElem?_eq_some_iff.1 h
  rw [← List.drop_eq_getElem_cons hlt, List.take_append_drop]

/-- An element of a list with one more at its end. -/
theorem getElem?_concat_eq_some {α : Type} {xs : List α} {x y : α} {k : Nat} :
    (xs ++ [x])[k]? = some y ↔ xs[k]? = some y ∨ k = xs.length ∧ x = y := by
  rw [List.getElem?_append]
  split
  · next hk => simp [Nat.ne_of_lt hk]
  · next hk =>
    rw [List.getElem?_eq_none (Nat.not_lt.1 hk), List.getElem?_singleton]
    split
    · next h0 => simp [show k = xs.length by omega]
    · next h0 => simp [show k ≠ xs.length by omega]

/-- A label stands at the end exactly if it is bound and everything behind it is silent. -/
theorem endsInLabel_iff {is : List Instr} :
    endsInLabel is = true ↔ ∃ (k : Nat) (l : Label), is[k]? = some (.label l) ∧
      ∀ (j : Nat) (i : Instr), k < j → is[j]? = some i → i.silent = true := by
  induction is using List.reverseRecOn with
  | nil => simp [endsInLabel]
  | append_singleton is i ih =>
    simp only [endsInLabel_concat, Bool.and_eq_true, Bool.or_eq_true, ih,
      getElem?_concat_eq_some]
    constructor
    · rintro ⟨hsilent, hlabel | ⟨k, l, hk, hlater⟩⟩
      · obtain ⟨l, hl⟩ := Option.isSome_iff_exists.1 hlabel
        refine ⟨is.length, l, Or.inr ⟨rfl, Body.binds?_eq_some_iff.1 hl⟩, ?_⟩
        rintro j i' hj (hi | ⟨rfl, -⟩)
        · exact absurd (List.getElem?_eq_some_iff.1 hi).1 (Nat.lt_asymm hj)
        · exact absurd hj (Nat.lt_irrefl _)
      · refine ⟨k, l, Or.inl hk, ?_⟩
        rintro j i' hj (hi | ⟨-, rfl⟩)
        · exact hlater j i' hj hi
        · exact hsilent
    · rintro ⟨k, l, hk | ⟨rfl, rfl⟩, hlater⟩
      · -- the label stands earlier, so the last instruction is one of those behind it
        refine ⟨hlater is.length i ?_ (Or.inr ⟨rfl, rfl⟩), Or.inr ⟨k, l, hk, ?_⟩⟩
        · exact (List.getElem?_eq_some_iff.1 hk).1
        · exact fun j i' hj hi ↦ hlater j i' hj (Or.inl hi)
      · exact ⟨rfl, Or.inl rfl⟩

/-- The operation that does nothing. -/
def Op.nop : Op Operand := ⟨.nop, [], .none⟩

/-- What stands behind the instructions of a body, by whether they end in a label. -/
def padding (atEnd : Bool) : List (Op Operand) := if atEnd then [Op.nop] else []

namespace Stream

/-! ### One instruction -/

/-- Append operations of a body. -/
def emitAll (body : Nat) (ops : List (Op Operand)) (s : Stream) : Stream :=
  ops.foldl (fun st op ↦ st.emit body op) s

/-- Lay one instruction of a body, paired with its line. -/
def layInstr (ops : Instr → List (Op Operand)) (body : Nat) (s : Stream) (x : Instr × Nat) :
    Stream :=
  match x.1.binds? with
  | some l => (s.setLine x.2).bind body l
  | none => (s.setLine x.2).emitAll body (ops x.1)

/-- Lay instructions of a body in order, each paired with its line. -/
def lay (ops : Instr → List (Op Operand)) (body : Nat) (code : List (Instr × Nat)) (s : Stream) :
    Stream :=
  code.foldl (layInstr ops body) s

@[simp] theorem labels_emit (s : Stream) (body : Nat) (op : Op Operand) :
    (s.emit body op).labels = s.labels := by
  rw [emit, pushOperands_eq]
  unfold pushOpcode markLine
  cases op.immediate <;> split <;> rfl

@[simp] theorem lastLabel_emit (s : Stream) (body : Nat) (op : Op Operand) :
    (s.emit body op).lastLabel = s.lastLabel := by
  rw [emit, pushOperands_eq]
  unfold pushOpcode markLine
  cases op.immediate <;> split <;> rfl

@[simp] theorem size_pushBytes (s : Stream) (bytes : List UInt8) :
    (s.pushBytes bytes).code.size = s.code.size + bytes.length := by
  rw [← Array.length_toList, ← Array.length_toList]
  simp [pushBytes]

@[simp] theorem size_pushByte (s : Stream) (b : UInt8) :
    (s.pushByte b).code.size = s.code.size + 1 :=
  Array.size_push ..

theorem size_pushOpcode (s : Stream) (op : Opcode) :
    (s.pushOpcode op).code.size = s.code.size + 1 := by
  rw [pushOpcode, size_pushByte, markLine]
  split <;> rfl

/-- An immediate takes as many bytes as it has, whatever distance stands in it. -/
theorem size_pushImmediate (s : Stream) (body : Nat) (i : Immediate) :
    (s.pushImmediate body i).code.size = s.code.size + (i.bytes 0).length := by
  cases i with
  | text t => simp [pushImmediate, pushText, Immediate.bytes, Nat.add_assoc, Nat.add_comm 1]
  | target l => simp [pushImmediate, pushTarget, Immediate.bytes, length_int32Bytes]
  | _ => simp [pushImmediate, pushUInt16, pushInt32, Immediate.bytes]

@[simp] theorem size_emit (s : Stream) (body : Nat) (op : Op Operand) :
    (s.emit body op).code.size = s.code.size + op.size := by
  rw [emit, size_pushImmediate, pushOperands_eq, size_pushBytes, size_pushOpcode, Op.size, Op.bytes,
    List.length_append, Op.head, List.length_cons]
  omega

@[simp] theorem labels_emitAll (s : Stream) (body : Nat) (ops : List (Op Operand)) :
    (s.emitAll body ops).labels = s.labels := by
  induction ops generalizing s with
  | nil => rfl
  | cons op ops ih => exact (ih (s.emit body op)).trans (labels_emit s body op)

@[simp] theorem lastLabel_emitAll (s : Stream) (body : Nat) (ops : List (Op Operand)) :
    (s.emitAll body ops).lastLabel = s.lastLabel := by
  induction ops generalizing s with
  | nil => rfl
  | cons op ops ih => exact (ih (s.emit body op)).trans (lastLabel_emit s body op)

@[simp] theorem size_emitAll (s : Stream) (body : Nat) (ops : List (Op Operand)) :
    (s.emitAll body ops).code.size = s.code.size + Op.total ops := by
  induction ops generalizing s with
  | nil => rfl
  | cons op ops ih =>
    have hstep : s.emitAll body (op :: ops) = (s.emit body op).emitAll body ops := rfl
    rw [hstep, ih, size_emit, Op.total_cons, Nat.add_assoc]

theorem Lays.setLine {s : Stream} {cs : List Chunk} (h : s.Lays cs) (line : Nat) :
    (s.setLine line).Lays cs := ⟨h.code, h.patches⟩

/-- Emitting operations appends their chunks, in order. -/
theorem Lays.emitAll {s : Stream} {cs : List Chunk} (h : s.Lays cs) (body : Nat)
    (ops : List (Op Operand)) :
    (s.emitAll body ops).Lays (cs ++ ops.flatMap (Op.chunks body)) := by
  induction ops generalizing s cs with
  | nil => rwa [List.flatMap_nil, List.append_nil]
  | cons op ops ih =>
    rw [List.flatMap_cons, ← List.append_assoc]
    exact ih (h.emit body op)

/-! ### All instructions of a body -/

section Lay

variable {ops : Instr → List (Op Operand)} {body : Nat} {code : List (Instr × Nat)} {s : Stream}

/-- The last instruction is laid on what the earlier ones have left. -/
theorem lay_concat (x : Instr × Nat) :
    s.lay ops body (code ++ [x]) = (s.lay ops body code).layInstr ops body x :=
  List.foldl_concat ..

/-- Laying looks at the operations of the instructions that are laid, and at no others. -/
theorem lay_congr {ops' : Instr → List (Op Operand)} (h : ∀ x ∈ code, ops x.1 = ops' x.1) :
    s.lay ops body code = s.lay ops' body code := by
  refine List.foldl_ext _ _ s fun t x hx ↦ ?_
  rw [layInstr, layInstr, h x hx]

/-- A label leaves no operations behind, so an instruction always lays its own. -/
theorem Lays.layInstr {cs : List Chunk} (hops : ∀ i, ops i = [] ↔ i.silent = true)
    (h : s.Lays cs) (x : Instr × Nat) :
    (s.layInstr ops body x).Lays (cs ++ (ops x.1).flatMap (Op.chunks body)) := by
  unfold Stream.layInstr
  split
  · next l hl =>
    rw [(hops x.1).2 (silent_of_binds? hl), List.flatMap_nil, List.append_nil]
    exact ⟨h.code, h.patches⟩
  · exact (h.setLine x.2).emitAll body (ops x.1)

/-- **Laying code appends its chunks.** -/
theorem Lays.lay {cs : List Chunk} (hops : ∀ i, ops i = [] ↔ i.silent = true) (h : s.Lays cs) :
    (s.lay ops body code).Lays
      (cs ++ ((code.map Prod.fst).flatMap ops).flatMap (Op.chunks body)) := by
  induction code using List.reverseRecOn with
  | nil => rwa [List.map_nil, List.flatMap_nil, List.flatMap_nil, List.append_nil]
  | append_singleton code x ih =>
    rw [lay_concat, List.map_append, List.map_singleton, List.flatMap_append,
      List.flatMap_singleton, List.flatMap_append, ← List.append_assoc]
    exact ih.layInstr hops x

/-- An instruction leaves as many bytes as its operations have; a label leaves none. -/
theorem size_layInstr (hops : ∀ i, ops i = [] ↔ i.silent = true) (x : Instr × Nat) :
    (s.layInstr ops body x).code.size = s.code.size + Op.total (ops x.1) := by
  unfold layInstr
  split
  · next l hl =>
    rw [(hops x.1).2 (silent_of_binds? hl)]
    rfl
  · exact size_emitAll ..

/-- Code leaves as many bytes as its operations have. -/
theorem size_lay (hops : ∀ i, ops i = [] ↔ i.silent = true) :
    (s.lay ops body code).code.size =
      s.code.size + Op.total ((code.map Prod.fst).flatMap ops) := by
  induction code using List.reverseRecOn with
  | nil => rfl
  | append_singleton code x ih =>
    rw [lay_concat, size_layInstr hops, ih, List.map_append, List.map_singleton,
      List.flatMap_append, List.flatMap_singleton, Op.total_append, Nat.add_assoc]

/-! ### Labels -/

/-- An instruction binds at most its own label, at the end of the stream. -/
theorem getElem?_labels_layInstr (x : Instr × Nat) (key : LabelKey) :
    (s.layInstr ops body x).labels[key]? =
      if x.1.binds?.map (Prod.mk body) = some key then some s.code.size else s.labels[key]? := by
  unfold layInstr
  split
  · next l hl =>
    show (s.labels.insert (body, l) s.code.size)[key]? = _
    simp only [Std.TreeMap.getElem?_insert, LabelKey.order_eq_eq, hl, Option.map_some,
      Option.some.injEq]
  · next hl =>
    rw [hl, labels_emitAll]
    rfl

/-- Labels of other bodies, and labels that are not bound here, stay as they are. -/
theorem getElem?_labels_lay_of_not {n : Nat} {l : Label}
    (h : ¬(n = body ∧ l ∈ (code.map Prod.fst).filterMap Instr.binds?)) :
    (s.lay ops body code).labels[(n, l)]? = s.labels[(n, l)]? := by
  induction code using List.reverseRecOn with
  | nil => rfl
  | append_singleton code x ih =>
    rw [List.map_append, List.map_singleton, List.filterMap_append, List.mem_append] at h
    have hx : x.1.binds?.map (Prod.mk body) ≠ some (n, l) := by
      intro heq
      obtain ⟨m, hm, hkey⟩ := Option.map_eq_some_iff.1 heq
      obtain ⟨rfl, rfl⟩ := Prod.mk.inj hkey
      exact h ⟨rfl, Or.inr (List.mem_filterMap.2 ⟨_, List.mem_singleton_self _, hm⟩)⟩
    rw [lay_concat, getElem?_labels_layInstr, if_neg hx]
    exact ih fun hl ↦ h ⟨hl.1, Or.inl hl.2⟩

/-- A label is free after laying code exactly if it was free before and the code does not bind
it. -/
theorem getElem?_labels_lay_eq_none_iff {l : Label} :
    (s.lay ops body code).labels[(body, l)]? = none ↔
      s.labels[(body, l)]? = none ∧ l ∉ (code.map Prod.fst).filterMap Instr.binds? := by
  induction code using List.reverseRecOn with
  | nil => simp [lay]
  | append_singleton code x ih =>
    rw [lay_concat, getElem?_labels_layInstr, List.map_append, List.map_singleton,
      List.filterMap_append, List.mem_append, not_or, ← and_assoc, ← ih]
    cases hx : x.1.binds? with
    | none => simp [hx]
    | some m =>
      by_cases hlm : m = l
      · simp [hx, hlm]
      · simp [hx, hlm, Ne.symm hlm]

/-- **A label that is bound once** is found behind what the earlier instructions left. -/
theorem getElem?_labels_lay (hops : ∀ i, ops i = [] ↔ i.silent = true)
    (hu : ((code.map Prod.fst).filterMap Instr.binds?).Nodup) {k : Nat} {l : Label}
    (hk : (code.map Prod.fst)[k]? = some (.label l)) :
    (s.lay ops body code).labels[(body, l)]? =
      some (s.code.size + Op.total (((code.map Prod.fst).take k).flatMap ops)) := by
  induction code using List.reverseRecOn with
  | nil => cases hk
  | append_singleton code x ih =>
    rw [List.map_append, List.map_singleton] at hk hu ⊢
    rw [lay_concat, getElem?_labels_layInstr]
    rw [List.filterMap_append, List.nodup_append] at hu
    rcases getElem?_concat_eq_some.1 hk with hk | ⟨rfl, hx⟩
    · -- bound earlier, so the last instruction binds another label
      have hmem : l ∈ (code.map Prod.fst).filterMap Instr.binds? :=
        List.mem_filterMap.2 ⟨_, List.mem_of_getElem? hk, rfl⟩
      have hne : x.1.binds?.map (Prod.mk body) ≠ some (body, l) := by
        intro heq
        obtain ⟨m, hm, hkey⟩ := Option.map_eq_some_iff.1 heq
        obtain rfl : m = l := (Prod.mk.inj hkey).2
        exact hu.2.2 m hmem m (List.mem_filterMap.2 ⟨_, List.mem_singleton_self _, hm⟩) rfl
      rw [if_neg hne, List.take_append_of_le_length
        (Nat.le_of_lt (List.getElem?_eq_some_iff.1 hk).1)]
      exact ih hu.1 hk
    · rw [hx, if_pos (by rfl), size_lay hops, List.take_left]

/-! ### A label at the end -/

/-- No label is bound behind the end of the stream. -/
def LabelsBehind (s : Stream) : Prop := ∀ o, s.lastLabel = some o → o ≤ s.code.size

/-- A label is bound at the end of the stream, and the stream only grows. -/
theorem LabelsBehind.layInstr (hs : s.LabelsBehind)
    (hops : ∀ i, ops i = [] ↔ i.silent = true) (x : Instr × Nat) :
    (s.layInstr ops body x).LabelsBehind := by
  intro o ho
  have hsize : (s.layInstr ops body x).code.size = s.code.size + Op.total (ops x.1) :=
    size_layInstr hops x
  unfold Stream.layInstr at ho
  split at ho
  · obtain rfl : s.code.size = o := Option.some.inj ho
    omega
  · rw [lastLabel_emitAll] at ho
    have := hs o ho
    omega

/-- Laying code binds no label behind the end of the stream. -/
theorem LabelsBehind.lay (hs : s.LabelsBehind) (hops : ∀ i, ops i = [] ↔ i.silent = true) :
    (s.lay ops body code).LabelsBehind := by
  induction code using List.reverseRecOn with
  | nil => exact hs
  | append_singleton code x ih =>
    rw [lay_concat]
    exact ih.layInstr hops x

/-- One instruction leaves a label at the end if it binds one, or if it is silent and there was
one already. -/
theorem LabelsBehind.labelAtEnd_layInstr (hs : s.LabelsBehind)
    (hops : ∀ i, ops i = [] ↔ i.silent = true) (x : Instr × Nat) :
    (s.layInstr ops body x).labelAtEnd =
      (x.1.silent && (x.1.binds?.isSome || s.labelAtEnd)) := by
  have hsize : (s.layInstr ops body x).code.size = s.code.size + Op.total (ops x.1) :=
    size_layInstr hops x
  cases hl : x.1.binds? with
  | some l =>
    rw [silent_of_binds? hl, Stream.layInstr, hl]
    simp [labelAtEnd, bind]
  | none =>
    have hlast : (s.layInstr ops body x).lastLabel = s.lastLabel := by
      rw [Stream.layInstr, hl]
      exact lastLabel_emitAll ..
    rw [labelAtEnd, labelAtEnd, hlast, hsize, Option.isSome_none, Bool.false_or]
    cases hsilent : x.1.silent with
    | true => rw [(hops x.1).2 hsilent, Op.total_nil, Nat.add_zero, Bool.true_and]
    | false =>
      -- the stream has grown past every label
      have hpos : 0 < Op.total (ops x.1) := by
        refine Op.total_pos fun hnil ↦ ?_
        rw [(hops x.1).1 hnil] at hsilent
        cases hsilent
      rw [Bool.false_and, decide_eq_false_iff_not]
      intro heq
      have := hs _ heq
      omega

/-- **A label stands at the end of the stream** after laying code exactly if the code ends in a
label, provided that there was none before. -/
theorem LabelsBehind.labelAtEnd_lay (hs : s.LabelsBehind)
    (hops : ∀ i, ops i = [] ↔ i.silent = true) (hend : s.labelAtEnd = false) :
    (s.lay ops body code).labelAtEnd = endsInLabel (code.map Prod.fst) := by
  induction code using List.reverseRecOn with
  | nil => exact hend
  | append_singleton code x ih =>
    rw [lay_concat, (hs.lay hops).labelAtEnd_layInstr hops, ih, List.map_append,
      List.map_singleton, endsInLabel_concat]

end Lay

/-! ### Padding -/

/-- Append an operation that does nothing if a label stands at the end. -/
def pad (s : Stream) : Stream := if s.labelAtEnd then s.pushOpcode .nop else s

/-- Padding appends one operation exactly if a label stands at the end. -/
theorem Lays.pad {s : Stream} {cs : List Chunk} (h : s.Lays cs) (body : Nat) :
    s.pad.Lays (cs ++ (padding s.labelAtEnd).flatMap (Op.chunks body)) := by
  unfold Stream.pad
  split
  · next hend =>
    rw [hend, padding, if_pos rfl, List.flatMap_singleton]
    exact h.emit body Op.nop
  · next hend =>
    rw [padding, if_neg hend, List.flatMap_nil, List.append_nil]
    exact h

@[simp] theorem labels_pad (s : Stream) : s.pad.labels = s.labels := by
  unfold pad
  split
  · exact labels_emit s 0 Op.nop
  · rfl

@[simp] theorem lastLabel_pad (s : Stream) : s.pad.lastLabel = s.lastLabel := by
  unfold pad
  split
  · exact lastLabel_emit s 0 Op.nop
  · rfl

@[simp] theorem size_pad (s : Stream) :
    s.pad.code.size = s.code.size + Op.total (padding s.labelAtEnd) := by
  unfold pad
  split
  · next hend =>
    rw [hend]
    exact size_emit s 0 Op.nop
  · next hend => rw [padding, if_neg hend, Op.total_nil, Nat.add_zero]

/-- Padding binds no label. -/
theorem LabelsBehind.pad {s : Stream} (hs : s.LabelsBehind) : s.pad.LabelsBehind := by
  intro o ho
  have := hs o (lastLabel_pad s ▸ ho)
  rw [size_pad]
  omega

/-- Behind a padded body no label stands at the end: the padding moves the end past the last
one. -/
theorem labelAtEnd_pad (s : Stream) : s.pad.labelAtEnd = false := by
  cases hend : s.labelAtEnd with
  | false => rwa [pad, hend, if_neg Bool.false_ne_true]
  | true =>
    have hlast : s.lastLabel = some s.code.size := by simpa [labelAtEnd] using hend
    have hsize := size_pad s
    rw [hend, padding, if_pos rfl, Op.total_cons] at hsize
    have := Op.size_pos Op.nop
    simp only [labelAtEnd, lastLabel_pad, hlast, decide_eq_false_iff_not, Option.some.injEq]
    omega

end Stream

end RegisterBytecode
