import RegisterBytecode.Code.Image
import RegisterBytecode.Proofs.Code.Laying

/-!
# Streams under arbitrary edits

A compiler uses a stream in an orderly way: it lays one body behind the other and fills in all jumps
at the end. A stream does not ask for that. An `Edit` is anything that can be done to it, in any
order: labels and jumps of many bodies may alternate, raw bytes may stand anywhere, and jumps may be
filled in several times, each time with more of them. `Stream.perform` makes edits one after
another; it logs the errors that they return, and only a fault ends it.

Where an edit writes follows from the sizes of the edits before it (`Edit.offset`), and so does
where a label is bound (`Edit.BoundAt`). What one edit does to a stream is said once
(`Stream.Changed`), and what holds after any edits is proved from that by one induction
(`Stream.perform_induction`).
-/

namespace RegisterBytecode.Stream

/-! ### Edits -/

/-- An edit of a stream. -/
inductive Edit where
  /-- Set the source line of what follows. -/
  | setLine (line : Nat)
  /-- Append an opcode with its register operands, if it has any. -/
  | opcode (op : Opcode) (regs : List Operand)
  /-- Append a register operand. -/
  | operand (operand : Operand)
  /-- Append one byte. -/
  | byte (value : UInt8)
  /-- Append a two-byte word. -/
  | uint16 (value : UInt16)
  /-- Append a four-byte signed word. -/
  | int32 (value : Int32)
  /-- Append bytes. -/
  | bytes (bytes : List UInt8)
  /-- Append a jump to a label of a body, perhaps on a condition. -/
  | jump (op : Opcode) (cond : Option Operand) (body : Nat) (label : Label)
  /-- Bind a label of a body. -/
  | bind (body : Nat) (label : Label)
  /-- Fill in the jumps. -/
  | resolve (ranges : Array Range)
  deriving DecidableEq, Repr

namespace Edit

/-- What an edit does to a stream. -/
def apply : Edit → Stream → Outcome Stream Unit
  | setLine line, s => .done () (s.setLine line)
  | opcode op regs, s => .done () ((s.pushOpcode op).pushOperands regs)
  | operand o, s => .done () (s.pushOperand o)
  | byte b, s => .done () (s.pushByte b)
  | uint16 w, s => .done () (s.pushUInt16 w)
  | int32 v, s => .done () (s.pushInt32 v)
  | bytes bs, s => .done () (s.pushBytes bs)
  | jump op cond body label, s => .done () (s.emit body ⟨op, cond.toList, .target label⟩)
  | bind body label, s =>
    match s.bindNew body label with
    | .ok t => .done () t
    | .error f => .fault f
  | resolve ranges, s => s.resolve ranges

/-- The number of bytes that an edit appends. -/
def size : Edit → Nat
  | setLine _ => 0
  | opcode _ regs => 1 + 2 * regs.length
  | operand _ => 2
  | byte _ => 1
  | uint16 _ => 2
  | int32 _ => 4
  | bytes bs => bs.length
  | jump _ cond _ _ => 1 + 2 * cond.toList.length + 4
  | bind _ _ => 0
  | resolve _ => 0

/-- The number of bytes that edits append. -/
def total : List Edit → Nat
  | [] => 0
  | x :: xs => x.size + total xs

/-- Where the edit at position `k` writes. -/
def offset (xs : List Edit) (k : Nat) : Nat := total (xs.take k)

/-- A label of a body is bound at an offset. -/
def BoundAt (xs : List Edit) (body : Nat) (label : Label) (o : Nat) : Prop :=
  ∃ j, xs[j]? = some (.bind body label) ∧ offset xs j = o

/-- The operation that an edit emits, and the body that it belongs to as far as that matters. -/
def emits? : Edit → Option (Nat × Op Operand)
  | opcode op regs => some (0, ⟨op, regs, .none⟩)
  | jump op cond body label => some (body, ⟨op, cond.toList, .target label⟩)
  | _ => none

/-- The bytes that an edit appends without an opcode. -/
def raw? : Edit → Option (List UInt8)
  | operand o => some (uint16Bytes o.encode)
  | byte b => some [b]
  | uint16 w => some (uint16Bytes w)
  | int32 v => some (int32Bytes v)
  | bytes bs => some bs
  | _ => none

variable {x : Edit} {xs ys : List Edit} {body k : Nat} {op : Op Operand} {label : Label} {o : Nat}

@[simp] theorem total_nil : total [] = 0 := rfl

@[simp] theorem total_cons (x : Edit) (xs : List Edit) : total (x :: xs) = x.size + total xs := rfl

@[simp] theorem total_append (xs ys : List Edit) : total (xs ++ ys) = total xs + total ys := by
  induction xs with
  | nil => rw [List.nil_append, total_nil, Nat.zero_add]
  | cons x xs ih => rw [List.cons_append, total_cons, total_cons, ih, Nat.add_assoc]

theorem total_singleton (x : Edit) : total [x] = x.size := by
  rw [total_cons, total_nil, Nat.add_zero]

/-- Edits do not move what was written before. -/
theorem offset_append_of_le (h : k ≤ xs.length) (ys : List Edit) :
    offset (xs ++ ys) k = offset xs k := by
  rw [offset, List.take_append_of_le_length h, offset]

/-- Behind some edits, offsets count from where these end. -/
theorem offset_length_append (xs ys : List Edit) (k : Nat) :
    offset (xs ++ ys) (xs.length + k) = total xs + offset ys k := by
  rw [offset, List.take_length_add_append, total_append, offset]

/-- An edit that emits an operation is as long as that operation. -/
theorem size_of_emits? (h : x.emits? = some (body, op)) : op.size = x.size := by
  cases x with
  | opcode op regs =>
    obtain ⟨rfl, rfl⟩ := Prod.mk.inj (Option.some.inj h)
    rw [Op.size, Op.bytes, List.length_append, Op.length_head]
    rfl
  | jump op cond body label =>
    obtain ⟨rfl, rfl⟩ := Prod.mk.inj (Option.some.inj h)
    rw [Op.size, Op.bytes, List.length_append, Op.length_head]
    rfl
  | _ => cases h

/-- An edit that appends bytes is as long as these. -/
theorem size_of_raw? {bs : List UInt8} (h : x.raw? = some bs) : bs.length = x.size := by
  cases x with
  | setLine | opcode | jump | bind | resolve => cases h
  | _ =>
    obtain rfl := Option.some.inj h
    rfl

/-- One more edit binds a label of its own, if any. -/
theorem boundAt_concat :
    BoundAt (xs ++ [x]) body label o ↔
      BoundAt xs body label o ∨ x = .bind body label ∧ total xs = o := by
  constructor
  · rintro ⟨j, hj, rfl⟩
    rcases getElem?_concat_eq_some.1 hj with hj | ⟨rfl, rfl⟩
    · have hle := Nat.le_of_lt (List.getElem?_eq_some_iff.1 hj).1
      exact Or.inl ⟨j, hj, (offset_append_of_le hle _).symm⟩
    · refine Or.inr ⟨rfl, ?_⟩
      rw [offset_append_of_le (Nat.le_refl _), offset, List.take_length]
  · rintro (⟨j, hj, rfl⟩ | ⟨rfl, rfl⟩)
    · have hle := Nat.le_of_lt (List.getElem?_eq_some_iff.1 hj).1
      exact ⟨j, getElem?_concat_eq_some.2 (Or.inl hj), offset_append_of_le hle _⟩
    · refine ⟨xs.length, getElem?_concat_eq_some.2 (Or.inr ⟨rfl, rfl⟩), ?_⟩
      rw [offset_append_of_le (Nat.le_refl _), offset, List.take_length]

end Edit

/-! ### Filling in jumps, however it ends -/

/-- Overwriting keeps the number of bytes. -/
theorem size_writeAt (bytes : List UInt8) (position : Nat) (code : Array UInt8) :
    (writeAt bytes position code).size = code.size := by
  induction bytes generalizing position code with
  | nil => rfl
  | cons b bytes ih => rw [writeAt, ih, Array.size_setIfInBounds]

/-- Two streams agree in everything but the bytes of their code and the patches. -/
structure SameFrame (s t : Stream) : Prop where
  size : t.code.size = s.code.size
  rest : t = { s with code := t.code, patches := t.patches }

theorem SameFrame.refl (s : Stream) : s.SameFrame s := ⟨rfl, rfl⟩

theorem SameFrame.trans {s t u : Stream} (h : s.SameFrame t) (h' : t.SameFrame u) :
    s.SameFrame u where
  size := h'.size.trans h.size
  rest := by
    rw [h'.rest, h.rest]

/-- Overwriting changes bytes and nothing else. -/
theorem sameFrame_overwrite (s : Stream) (position : Nat) (bytes : List UInt8) :
    s.SameFrame (s.overwrite position bytes) :=
  ⟨size_writeAt bytes position s.code, rfl⟩

/-- A patch changes bytes only, however it ends. -/
theorem sameFrame_patch (s : Stream) (ranges : Array Range) (p : Patch) :
    (s.patch ranges p).Leaves s.SameFrame := by
  rw [patch]
  split
  · trivial
  · split
    · split
      · exact sameFrame_overwrite s _ _
      · exact .refl s
    · trivial

/-- Any number of patches change bytes only, however they end. -/
theorem sameFrame_patchAll (ranges : Array Range) (ps : List Patch) {s t : Stream}
    (h : s.SameFrame t) : (patchAll ranges ps t).Leaves s.SameFrame := by
  induction ps generalizing t with
  | nil => exact h
  | cons p ps ih =>
    rw [patchAll]
    refine Outcome.Leaves.bind ?_ fun _ u hu ↦ ih hu
    have hpatch := sameFrame_patch t ranges p
    revert hpatch
    cases t.patch ranges p with
    | done v u => exact fun hpatch ↦ h.trans hpatch
    | failed e u => exact fun hpatch ↦ h.trans hpatch
    | fault f => exact id

/-- **Filling in jumps** changes nothing but code and patches, and keeps the size of the code, even
where a jump is out of range. -/
theorem sameFrame_resolve (s : Stream) (ranges : Array Range) :
    (s.resolve ranges).Leaves s.SameFrame :=
  sameFrame_patchAll ranges _ ⟨rfl, rfl⟩

/-! ### One edit -/

/-- What an edit that ends with a value has done to a stream. -/
inductive Changed (s : Stream) : Edit → Stream → Prop
  | setLine (line : Nat) : s.Changed (.setLine line) (s.setLine line)
  /-- An operation has been emitted. -/
  | emit {x : Edit} {body : Nat} {op : Op Operand} (h : x.emits? = some (body, op)) :
    s.Changed x (s.emit body op)
  /-- Bytes have been appended. -/
  | append {x : Edit} {bytes : List UInt8} (h : x.raw? = some bytes) :
    s.Changed x (s.pushBytes bytes)
  /-- A label that was free has been bound. -/
  | bind {body : Nat} {label : Label} (h : s.labels[(body, label)]? = none) :
    s.Changed (.bind body label) (s.bind body label)
  /-- The jumps have been filled in. -/
  | resolve {ranges : Array Range} {t : Stream} {u : Unit} (h : s.resolve ranges = .done u t) :
    s.Changed (.resolve ranges) t

variable {s t : Stream} {x : Edit}

/-- What an edit that ends with a value has done. -/
theorem changed_of_apply {u : Unit} (h : x.apply s = .done u t) : s.Changed x t := by
  cases x with
  | setLine line =>
    obtain ⟨-, rfl⟩ := Outcome.done.inj h
    exact .setLine line
  | opcode op regs =>
    obtain ⟨-, rfl⟩ := Outcome.done.inj h
    exact @Changed.emit s (.opcode op regs) 0 ⟨op, regs, .none⟩ rfl
  | jump op cond body label =>
    obtain ⟨-, rfl⟩ := Outcome.done.inj h
    exact .emit rfl
  | byte b =>
    obtain ⟨-, rfl⟩ := Outcome.done.inj h
    have hcode : s.code.push b = s.code ++ [b] := Array.toList_inj.1 (by simp)
    rw [pushByte, hcode]
    exact .append rfl
  | bind body label =>
    rw [Edit.apply, bindNew] at h
    split at h
    · next t' hbind =>
      obtain ⟨-, rfl⟩ := Outcome.done.inj h
      split at hbind
      · cases hbind
      · next hbound =>
        obtain rfl := Except.ok.inj hbind
        refine .bind ?_
        rwa [isBound, Std.TreeMap.contains_eq_isSome_getElem?, Bool.not_eq_true,
          Option.isSome_eq_false_iff, Option.isNone_iff_eq_none] at hbound
    · cases h
  | resolve ranges => exact .resolve h
  | _ =>
    obtain ⟨-, rfl⟩ := Outcome.done.inj h
    exact .append rfl

/-- Only filling in jumps can run into a limit. -/
theorem resolve_of_apply {e : CompileError} (h : x.apply s = .failed e t) :
    ∃ ranges, x = .resolve ranges ∧ s.resolve ranges = .failed e t := by
  cases x with
  | resolve ranges => exact ⟨ranges, rfl, h⟩
  | bind body label =>
    rw [Edit.apply] at h
    split at h <;> cases h
  | _ => cases h

/-- **Every edit has its own number of bytes**, which does not depend on the stream. -/
theorem Changed.size_eq (h : s.Changed x t) : t.code.size = s.code.size + x.size := by
  cases h with
  | setLine line => rfl
  | emit hx => rw [size_emit, Edit.size_of_emits? hx]
  | append hx => rw [size_pushBytes, Edit.size_of_raw? hx]
  | bind hfree => rfl
  | @resolve ranges t u ht =>
    have hframe := sameFrame_resolve s ranges
    rw [ht] at hframe
    exact hframe.size

/-! ### Any edits -/

/-- The image of a stream as it is, with a pool. -/
def image (s : Stream) (pool : Array Entry) : Image := ⟨s.code, pool, s.lines⟩

/-- Make edits one after another, and log the errors that they return. A fault ends it. -/
def perform : List Edit → Stream → Except Fault (List CompileError × Stream)
  | [], s => .ok ([], s)
  | x :: xs, s =>
    match x.apply s with
    | .done _ t => perform xs t
    | .failed e t => (perform xs t).map fun r ↦ (e :: r.1, r.2)
    | .fault f => .error f

/-- **What every edit keeps holds after any edits**, where it may depend on the edits made and on
the errors that they returned. -/
theorem perform_induction {Inv : List Edit → List CompileError → Stream → Prop}
    (hdone : ∀ {xs es x s t}, Inv xs es s → s.Changed x t → Inv (xs ++ [x]) es t)
    (hfailed : ∀ {xs es ranges e s t}, Inv xs es s → s.resolve ranges = .failed e t →
      Inv (xs ++ [.resolve ranges]) (es ++ [e]) t)
    {xs ys : List Edit} {es es' : List CompileError} (hs : Inv xs es s)
    (h : perform ys s = .ok (es', t)) : Inv (xs ++ ys) (es ++ es') t := by
  induction ys generalizing s xs es es' with
  | nil =>
    obtain ⟨rfl, rfl⟩ := Prod.mk.inj (Except.ok.inj h)
    rwa [List.append_nil, List.append_nil]
  | cons x ys ih =>
    rw [perform] at h
    rw [List.append_cons]
    split at h
    · next u s' hx => exact ih (hdone hs (changed_of_apply hx)) h
    · next e s' hx =>
      obtain ⟨ranges, rfl, hresolve⟩ := resolve_of_apply hx
      obtain ⟨⟨es'', t'⟩, hrest, heq⟩ := exists_of_map_eq_ok h
      obtain ⟨rfl, rfl⟩ := Prod.mk.inj heq
      rw [List.append_cons es]
      exact ih (hfailed hs hresolve) hrest
    · cases h

end RegisterBytecode.Stream
