import RegisterBytecode.Proofs.Code.Edits
import RegisterBytecode.Proofs.Landing

/-!
# Filling in jumps writes their distances only

Jumps may be filled in more than once, each time those that were written since. The main theorem
says what one such round does to a stream that any edits have led to: every jump leads to where its
label is bound, those of earlier rounds as they did before, and no byte changes but the four of
every distance that was open.

The invariant (`Stream.Written`) splits the edits at the last round. What stands before it is
settled: bytes that stay as they are, in which every jump already leads to its label, whatever is
appended. What stands behind it are the chunks of the edits since (`Edit.chunks`), with holes for
the distances, and their patches are exactly those that wait. So a round meets one row of chunks
whose first one is raw, and the next round meets all of it as one raw chunk.
-/

namespace RegisterBytecode

/-! ### Bytes beside the holes -/

/-- **Renderings differ in holes only.** -/
theorem Chunk.getElem?_render_congr (dist dist' : Nat → Nat → Label → Int32) {pos o : Nat}
    {cs : List Chunk}
    (h : ∀ p ∈ patches pos cs, pos + o < p.position ∨ p.position + 4 ≤ pos + o) :
    (render dist pos cs)[o]? = (render dist' pos cs)[o]? := by
  induction cs generalizing pos o with
  | nil => rfl
  | cons c cs ih =>
    cases c with
    | raw bytes =>
      rw [render, render, List.getElem?_append, List.getElem?_append]
      split
      · rfl
      · next hlt =>
        refine ih fun p hp ↦ ?_
        have hp := h p hp
        omega
    | hole body label =>
      rw [render, render, List.getElem?_append, List.getElem?_append, length_int32Bytes,
        length_int32Bytes]
      have hfirst : pos + o < pos ∨ pos + 4 ≤ pos + o := h _ List.mem_cons_self
      rw [if_neg (by omega), if_neg (by omega)]
      refine ih fun p hp ↦ ?_
      have hp := h p (List.mem_cons_of_mem _ hp)
      omega

/-- A jump takes a condition exactly if it depends on one. -/
def Opcode.Takes (op : Opcode) (cond : Option Operand) : Prop :=
  op.isJump = true ∧ (cond.isSome = true ↔ op = .jumpIf ∨ op = .jumpIfNot)

instance (op : Opcode) (cond : Option Operand) : Decidable (op.Takes cond) :=
  inferInstanceAs (Decidable (_ ∧ _))

/-- A jump that takes its condition has the shape of its opcode. -/
theorem Opcode.Takes.fits {op : Opcode} {cond : Option Operand} (h : op.Takes cond)
    (label : Label) : (⟨op, cond.toList, .target label⟩ : Op Operand).Fits := by
  obtain ⟨hjump, hcond⟩ := h
  cases op with
  | jump =>
    cases cond with
    | none => exact ⟨rfl, rfl⟩
    | some c => cases hcond.1 rfl with | _ h => cases h
  | jumpIf =>
    cases cond with
    | none => cases hcond.2 (Or.inl rfl)
    | some c => exact ⟨rfl, rfl⟩
  | jumpIfNot =>
    cases cond with
    | none => cases hcond.2 (Or.inr rfl)
    | some c => exact ⟨rfl, rfl⟩
  | _ => cases hjump

namespace Stream

/-! ### Edits as chunks -/

namespace Edit

/-- The chunks that an edit appends. -/
def chunks (x : Edit) : List Chunk :=
  match x.emits?, x.raw? with
  | some (body, op), _ => op.chunks body
  | none, some bs => [.raw bs]
  | none, none => []

/-- No jumps have been filled in behind the edit at position `k`. -/
def IsOpen (xs : List Edit) (k : Nat) : Prop :=
  ∀ j ranges, k < j → xs[j]? ≠ some (.resolve ranges)

/-- An offset is one of the four of the distance of the jump at position `k`, which are its last
ones. -/
def InDistance (xs : List Edit) (k o : Nat) : Prop :=
  ∃ op cond body label, xs[k]? = some (.jump op cond body label) ∧
    offset xs (k + 1) ≤ o + 4 ∧ o < offset xs (k + 1)

variable {x : Edit} {xs ys : List Edit}

theorem chunks_of_emits? {body : Nat} {op : Op Operand} (h : x.emits? = some (body, op)) :
    x.chunks = op.chunks body := by
  rw [chunks, h]

theorem chunks_of_raw? {bs : List UInt8} (h : x.raw? = some bs) : x.chunks = [.raw bs] := by
  have hemits : x.emits? = none := by
    cases x with
    | opcode | jump => cases h
    | _ => rfl
  rw [chunks, hemits, h]

theorem total_chunks (x : Edit) : Chunk.total x.chunks = x.size := by
  cases x with
  | opcode op regs =>
    rw [chunks_of_emits? (by rfl), Op.total_chunks]
    exact size_of_emits? (x := .opcode op regs) rfl
  | jump op cond body label =>
    rw [chunks_of_emits? (by rfl), Op.total_chunks]
    exact size_of_emits? (x := .jump op cond body label) rfl
  | _ => rfl

theorem total_flatMap_chunks (xs : List Edit) : Chunk.total (xs.flatMap chunks) = total xs := by
  induction xs with
  | nil => rfl
  | cons x xs ih =>
    rw [List.flatMap_cons, Chunk.total_append, total_chunks, ih, total_cons]

/-- Only jumps leave patches, each at its end. -/
theorem eq_jump_of_mem_patches {pos : Nat} {p : Patch} (h : p ∈ Chunk.patches pos x.chunks) :
    (∃ op cond body label, x = .jump op cond body label) ∧ p.position + 4 = pos + x.size := by
  cases x with
  | jump op cond body label =>
    refine ⟨⟨op, cond, body, label, rfl⟩, ?_⟩
    obtain rfl := List.mem_singleton.1 h
    show pos + (Op.head _).length + 4 = _
    rw [Op.length_head, Nat.add_assoc]
    rfl
  | _ => cases h

/-- Every patch of edits is that of a jump among them, and ends where the jump does. -/
theorem exists_jump_of_mem_patches {pos : Nat} {p : Patch}
    (h : p ∈ Chunk.patches pos (xs.flatMap chunks)) :
    ∃ k op cond body label, xs[k]? = some (.jump op cond body label) ∧
      p.position + 4 = pos + offset xs (k + 1) := by
  induction xs using List.reverseRecOn with
  | nil => cases h
  | append_singleton xs x ih =>
    rw [List.flatMap_append, Chunk.patches_append, List.flatMap_singleton] at h
    rcases List.mem_append.1 h with h | h
    · obtain ⟨k, op, cond, body, label, hk, hp⟩ := ih h
      refine ⟨k, op, cond, body, label, getElem?_concat_eq_some.2 (Or.inl hk), ?_⟩
      rwa [offset_append_of_le (List.getElem?_eq_some_iff.1 hk).1]
    · obtain ⟨⟨op, cond, body, label, rfl⟩, hp⟩ := eq_jump_of_mem_patches h
      refine ⟨xs.length, op, cond, body, label, getElem?_concat_eq_some.2 (Or.inr ⟨rfl, rfl⟩), ?_⟩
      rw [hp, total_flatMap_chunks, Nat.add_assoc, offset_length_append]
      exact congrArg (fun n ↦ pos + (total xs + n)) (total_singleton _).symm

end Edit

variable {s t : Stream} {x : Edit} {cs : List Chunk} {ranges : Array Range} {u : Unit}

/-- An edit appends its chunks, unless it fills in jumps. -/
theorem Lays.changed (h : s.Lays cs) (hx : s.Changed x t) (hne : ∀ ranges, x ≠ .resolve ranges) :
    t.Lays (cs ++ x.chunks) := by
  cases hx with
  | setLine line =>
    rw [show (Edit.setLine line).chunks = [] from rfl, List.append_nil]
    exact h.setLine line
  | emit hx =>
    rw [Edit.chunks_of_emits? hx]
    exact h.emit _ _
  | append hx =>
    rw [Edit.chunks_of_raw? hx]
    exact h.raw (by simp [pushBytes]) rfl
  | @bind body label hfree =>
    rw [show (Edit.bind body label).chunks = [] from rfl, List.append_nil]
    exact ⟨h.code, h.patches⟩
  | resolve => exact absurd rfl (hne _)

/-- One edit binds at most one label, at the end of the stream. -/
theorem Changed.labels_iff (h : s.Changed x t) {body : Nat} {label : Label} {o : Nat} :
    t.labels[(body, label)]? = some o ↔
      s.labels[(body, label)]? = some o ∨ x = .bind body label ∧ s.code.size = o := by
  -- all edits but one leave the labels alone
  have hkeep (hlabels : t.labels = s.labels) (hx : ∀ body label, x ≠ .bind body label) :
      t.labels[(body, label)]? = some o ↔
        s.labels[(body, label)]? = some o ∨ x = .bind body label ∧ s.code.size = o := by
    rw [hlabels, or_iff_left fun hbind ↦ hx _ _ hbind.1]
  cases h with
  | setLine line => exact hkeep rfl nofun
  | emit hx =>
    refine hkeep (labels_emit ..) ?_
    rintro _ _ rfl
    cases hx
  | append hx =>
    refine hkeep rfl ?_
    rintro _ _ rfl
    cases hx
  | @bind body' label' hfree =>
    show (s.labels.insert (body', label') s.code.size)[(body, label)]? = some o ↔ _
    rw [Std.TreeMap.getElem?_insert]
    split
    · next heq =>
      obtain ⟨rfl, rfl⟩ := Prod.mk.inj (LabelKey.order_eq_eq.1 heq)
      simp [hfree]
    · next hne =>
      refine (or_iff_left ?_).symm
      rintro ⟨heq, -⟩
      obtain ⟨rfl, rfl⟩ := Edit.bind.inj heq
      exact hne (LabelKey.order_eq_eq.2 rfl)
  | @resolve ranges t u ht =>
    have hframe := sameFrame_resolve s ranges
    rw [ht] at hframe
    refine hkeep ?_ nofun
    rw [hframe.rest]

/-- **A jump that is filled in leads to its label**, whatever is appended later. -/
theorem Lays.target?_of_resolve {pre post : List Chunk} {body : Nat} {op : Op Operand}
    {label : Label} (hs : s.Lays (pre ++ (op.chunks body ++ post))) (hf : op.Fits)
    (ht : op.immediate = .target label) (h : s.resolve ranges = .done u t) :
    ∃ o, s.labels[(body, label)]? = some o ∧ (ranges[body]?).any (·.contains o) = true ∧
      ∀ m : Image, t.code.toList <+: m.code.toList → m.target? (Chunk.total pre) = some o := by
  obtain ⟨-, hcode, hres⟩ := hs.resolve h
  have hmem : ⟨body, label, Chunk.total pre + op.head.length, Chunk.total pre + op.size⟩ ∈
      Chunk.patches 0 (pre ++ (op.chunks body ++ post)) := by
    rw [Chunk.patches_append, Chunk.patches_append, Nat.zero_add]
    exact List.mem_append_right _ (List.mem_append_left _ (Op.mem_patches_chunks ht _ _))
  obtain ⟨o, d, hlabel, hrange, hd⟩ := hres _ hmem
  refine ⟨o, hlabel, hrange, fun m hm ↦ ?_⟩
  have hdist : op.distance s.distanceOf (Chunk.total pre + op.size) body = d := by
    rw [Op.distance, ht, Immediate.target?]
    show s.distanceOf _ _ _ = d
    rw [distanceOf, hlabel, Option.bind_some, hd, Option.getD_some]
  have hhas : m.Has (Chunk.total pre) (op.bytes d) := by
    obtain ⟨rest, hrest⟩ := hm
    rw [Chunk.render_append, Chunk.render_append, Nat.zero_add, Op.render_chunks, hdist] at hcode
    rw [hcode, List.append_assoc, List.append_assoc] at hrest
    exact ⟨_, _, hrest.symm, Chunk.length_render ..⟩
  exact hhas.target? hf ht hd

/-! ### What every edit keeps -/

/-- A stream after edits, those up to the last time that jumps were filled in and those since. -/
structure Written (old new : List Edit) (settled : List UInt8) (s : Stream) : Prop where
  /-- Only the distances written since are holes. -/
  lays : s.Lays (.raw settled :: new.flatMap Edit.chunks)
  length : settled.length = Edit.total old
  /-- The old edits end with filling in jumps. -/
  ends : ∀ k < old.length, ∃ j ranges, k ≤ j ∧ old[j]? = some (.resolve ranges)
  fresh : ∀ ranges, .resolve ranges ∉ new
  /-- Labels are bound where the edits bind them. -/
  labels : ∀ body label o,
    s.labels[(body, label)]? = some o ↔ Edit.BoundAt (old ++ new) body label o
  /-- The old jumps lead to their labels, whatever is appended. -/
  landed : ∀ k op cond body label, old[k]? = some (.jump op cond body label) → op.Takes cond →
    ∃ o, Edit.BoundAt (old ++ new) body label o ∧
      ∀ m : Image, settled <+: m.code.toList → m.target? (Edit.offset old k) = some o

section Written

variable {old new : List Edit} {settled : List UInt8}

theorem written_start (recordLines : Bool) : Written [] [] [] { recordLines } where
  lays := ⟨rfl, rfl⟩
  length := rfl
  ends := nofun
  fresh := nofun
  labels body label o := by
    refine ⟨fun h ↦ ?_, ?_⟩
    · rw [Std.TreeMap.getElem?_emptyc] at h
      cases h
    · rintro ⟨j, hj, -⟩
      cases hj
  landed _ _ _ _ _ hk := by cases hk

theorem Written.size (h : s.Written old new settled) : s.code.size = Edit.total (old ++ new) := by
  rw [h.lays.size, Chunk.total_cons, Chunk.size, h.length, Edit.total_flatMap_chunks,
    Edit.total_append]

/-- What is settled stands at the start of the stream. -/
theorem Written.settled_isPrefix (h : s.Written old new settled) : settled <+: s.code.toList := by
  rw [h.lays.code, Chunk.render]
  exact List.prefix_append _ _

/-- Labels after one more edit. -/
theorem Written.labels_changed (h : s.Written old new settled) (hx : s.Changed x t) (body : Nat)
    (label : Label) (o : Nat) :
    t.labels[(body, label)]? = some o ↔ Edit.BoundAt (old ++ new ++ [x]) body label o := by
  rw [hx.labels_iff, h.labels, h.size, Edit.boundAt_concat]

/-- An edit that fills in no jumps adds to what is new. -/
theorem Written.changed (h : s.Written old new settled) (hx : s.Changed x t)
    (hne : ∀ ranges, x ≠ .resolve ranges) : t.Written old (new ++ [x]) settled where
  lays := by
    rw [List.flatMap_append, List.flatMap_singleton]
    exact h.lays.changed hx hne
  length := h.length
  ends := h.ends
  fresh ranges hmem := by
    rcases List.mem_append.1 hmem with hmem | hmem
    · exact h.fresh ranges hmem
    · exact hne ranges (List.mem_singleton.1 hmem).symm
  labels := by
    rw [← List.append_assoc]
    exact h.labels_changed hx
  landed k op cond body label hk htakes := by
    obtain ⟨o, hbound, htarget⟩ := h.landed k op cond body label hk htakes
    rw [← List.append_assoc]
    exact ⟨o, Edit.boundAt_concat.2 (Or.inl hbound), htarget⟩

/-- The bytes of a stream whose jumps have just been filled in. -/
theorem Written.toList_resolve (h : s.Written old new settled)
    (hres : s.resolve ranges = .done u t) :
    t.code.toList =
      settled ++ Chunk.render s.distanceOf settled.length (new.flatMap Edit.chunks) := by
  rw [(h.lays.resolve hres).2.1, Chunk.render, Nat.zero_add]

/-- A jump that is new leads to its label once it is filled in. -/
theorem Written.target?_new (h : s.Written old new settled) (hres : s.resolve ranges = .done u t)
    {k : Nat} {op : Opcode} {cond : Option Operand} {body : Nat} {label : Label}
    (hk : new[k]? = some (.jump op cond body label)) (htakes : op.Takes cond) :
    ∃ o, Edit.BoundAt (old ++ new) body label o ∧ (ranges[body]?).any (·.contains o) = true ∧
      ∀ m : Image, t.code.toList <+: m.code.toList →
        m.target? (Edit.total old + Edit.offset new k) = some o := by
  have hlays := h.lays
  have hchunks : (Edit.jump op cond body label).chunks =
      Op.chunks body ⟨op, cond.toList, .target label⟩ := rfl
  rw [eq_take_append_cons_drop hk, List.flatMap_append, List.flatMap_cons, ← List.cons_append,
    hchunks] at hlays
  obtain ⟨o, hlabel, hrange, htarget⟩ := hlays.target?_of_resolve (htakes.fits label) rfl hres
  refine ⟨o, (h.labels body label o).1 hlabel, hrange, fun m hm ↦ ?_⟩
  have htarget := htarget m hm
  rwa [Chunk.total_cons, Chunk.size, h.length, Edit.total_flatMap_chunks] at htarget

/-- **Every jump leads to its label** once the new ones are filled in; the old ones did so
before. -/
theorem Written.target? (h : s.Written old new settled) (hres : s.resolve ranges = .done u t)
    {k : Nat} {op : Opcode} {cond : Option Operand} {body : Nat} {label : Label}
    (hk : (old ++ new)[k]? = some (.jump op cond body label)) (htakes : op.Takes cond) :
    ∃ o, Edit.BoundAt (old ++ new) body label o ∧
      (old.length ≤ k → (ranges[body]?).any (·.contains o) = true) ∧
      (k < old.length → ∀ m : Image, settled <+: m.code.toList →
        m.target? (Edit.offset (old ++ new) k) = some o) ∧
      ∀ m : Image, t.code.toList <+: m.code.toList →
        m.target? (Edit.offset (old ++ new) k) = some o := by
  rcases Nat.lt_or_ge k old.length with hlt | hge
  · rw [List.getElem?_append_left hlt] at hk
    obtain ⟨o, hbound, htarget⟩ := h.landed k op cond body label hk htakes
    rw [Edit.offset_append_of_le (Nat.le_of_lt hlt)]
    refine ⟨o, hbound, fun hge ↦ absurd hlt (Nat.not_lt.2 hge), fun _ ↦ htarget, fun m hm ↦ ?_⟩
    refine htarget m (List.IsPrefix.trans ?_ hm)
    rw [h.toList_resolve hres]
    exact List.prefix_append _ _
  · obtain ⟨k, rfl⟩ := Nat.exists_eq_add_of_le hge
    rw [List.getElem?_append_right hge, Nat.add_sub_cancel_left] at hk
    obtain ⟨o, hbound, hrange, htarget⟩ := h.target?_new hres hk htakes
    rw [Edit.offset_length_append]
    exact ⟨o, hbound, fun _ ↦ hrange, fun hlt ↦ absurd hlt (Nat.not_lt.2 hge), htarget⟩

/-- **Filling in jumps** settles everything. -/
theorem Written.resolve (h : s.Written old new settled) (hres : s.resolve ranges = .done u t) :
    t.Written (old ++ new ++ [.resolve ranges]) [] t.code.toList where
  lays := by
    obtain ⟨hframe, -, -⟩ := h.lays.resolve hres
    refine ⟨?_, ?_⟩
    · simp [Chunk.render]
    · rw [hframe]
      rfl
  length := by
    rw [Array.length_toList, (Changed.resolve hres).size_eq, h.size, ← Edit.total_singleton,
      ← Edit.total_append]
  ends k hk := by
    rw [List.length_append, List.length_singleton] at hk
    exact ⟨_, ranges, Nat.le_of_lt_succ hk, getElem?_concat_eq_some.2 (Or.inr ⟨rfl, rfl⟩)⟩
  fresh := nofun
  labels := by
    rw [List.append_nil]
    exact h.labels_changed (.resolve hres)
  landed k op cond body label hk htakes := by
    rcases getElem?_concat_eq_some.1 hk with hk | ⟨-, heq⟩
    · obtain ⟨o, hbound, -, -, htarget⟩ := h.target? hres hk htakes
      have hle := Nat.le_of_lt (List.getElem?_eq_some_iff.1 hk).1
      rw [List.append_nil, Edit.offset_append_of_le hle]
      exact ⟨o, Edit.boundAt_concat.2 (Or.inl hbound), htarget⟩
    · cases heq

/-- **After any edits** that returned no error, the stream is written by them. -/
theorem exists_written {xs : List Edit} {recordLines : Bool}
    (h : perform xs { recordLines } = .ok ([], s)) :
    ∃ old new settled, xs = old ++ new ∧ s.Written old new settled := by
  refine @perform_induction _ _
    (fun xs es s ↦ es = [] → ∃ old new settled, xs = old ++ new ∧ s.Written old new settled)
    (fun {_ _ x s t} ih hx hes ↦ ?_) (fun _ _ hes ↦ ?_) [] xs [] []
    (fun _ ↦ ⟨[], [], [], rfl, written_start recordLines⟩) h rfl
  · obtain ⟨old, new, settled, rfl, hs⟩ := ih hes
    by_cases hres : ∃ ranges, x = .resolve ranges
    · obtain ⟨ranges, rfl⟩ := hres
      cases hx with
      | emit hx => cases hx
      | append hx => cases hx
      | resolve hx => exact ⟨_, [], _, (List.append_nil _).symm, hs.resolve hx⟩
    · rw [List.append_assoc]
      exact ⟨old, new ++ [x], settled, rfl, hs.changed hx fun ranges heq ↦ hres ⟨ranges, heq⟩⟩
  · exact absurd hes (List.append_ne_nil_of_right_ne_nil _ (List.cons_ne_nil _ _))

/-- A jump is open exactly if it is new. -/
theorem Written.isOpen_iff (h : s.Written old new settled) {k : Nat} {op : Opcode}
    {cond : Option Operand} {body : Nat} {label : Label}
    (hk : (old ++ new)[k]? = some (.jump op cond body label)) :
    Edit.IsOpen (old ++ new) k ↔ old.length ≤ k := by
  refine ⟨fun hopen ↦ ?_, fun hge j ranges hj hget ↦ ?_⟩
  · by_contra hlt
    -- jumps were filled in behind every old edit, and a jump is none that does so itself
    obtain ⟨j, ranges, hle, hj⟩ := h.ends k (Nat.lt_of_not_le hlt)
    have hget : (old ++ new)[j]? = some (.resolve ranges) := by
      rw [List.getElem?_append_left (List.getElem?_eq_some_iff.1 hj).1, hj]
    refine hopen j ranges (Nat.lt_of_le_of_ne hle ?_) hget
    rintro rfl
    rw [hget] at hk
    cases hk
  · rw [List.getElem?_append_right (by omega)] at hget
    exact h.fresh ranges (List.mem_of_getElem? hget)

/-- Bytes beside the distances of open jumps stay as they are. -/
theorem Written.getElem?_resolve (h : s.Written old new settled)
    (hres : s.resolve ranges = .done u t) {o : Nat}
    (ho : ∀ k, Edit.IsOpen (old ++ new) k → ¬ Edit.InDistance (old ++ new) k o) :
    t.code[o]? = s.code[o]? := by
  rw [← Array.getElem?_toList, ← Array.getElem?_toList, (h.lays.resolve hres).2.1, h.lays.code]
  refine Chunk.getElem?_render_congr _ _ fun p hp ↦ ?_
  rw [Chunk.patches] at hp
  obtain ⟨k, op, cond, body, label, hk, hp⟩ := Edit.exists_jump_of_mem_patches hp
  have hk' : (old ++ new)[old.length + k]? = some (.jump op cond body label) := by
    rw [List.getElem?_append_right (Nat.le_add_right _ _), Nat.add_sub_cancel_left, hk]
  have hnot := ho _ ((h.isOpen_iff hk').2 (Nat.le_add_right _ _))
  have hoffset : Edit.offset (old ++ new) (old.length + k + 1) = p.position + 4 := by
    rw [Nat.add_assoc, Edit.offset_length_append, hp, h.length, Nat.zero_add]
  by_contra hin
  refine hnot ⟨op, cond, body, label, hk', ?_, ?_⟩ <;> omega

end Written

/-! ### The main theorem -/

/-- **Filling in jumps writes the open distances and nothing else.** After any edits that returned
no error, let the jumps be filled in without an error once more. Every jump that takes its condition
leads to the one offset where its label is bound; if it was open, then that is in the range of its
body, and if not, then it led there already. Outside the distances of open jumps no byte changes,
the code keeps its size, nothing else changes but that no patch is left, and filling in jumps again
does nothing. -/
theorem resolve_of_perform {xs : List Edit} {recordLines : Bool} {s t : Stream}
    {ranges : Array Range} {u : Unit} (h : perform xs { recordLines } = .ok ([], s))
    (hres : s.resolve ranges = .done u t) :
    (∀ k op cond body label, xs[k]? = some (.jump op cond body label) → op.Takes cond →
      ∃ o, (∀ o', Edit.BoundAt xs body label o' ↔ o' = o) ∧
        (∀ pool, (t.image pool).target? (Edit.offset xs k) = some o) ∧
        (Edit.IsOpen xs k → ∃ range, ranges[body]? = some range ∧ range.contains o = true) ∧
        (¬ Edit.IsOpen xs k → ∀ pool, (s.image pool).target? (Edit.offset xs k) = some o)) ∧
      (∀ o, (∀ k, Edit.IsOpen xs k → ¬ Edit.InDistance xs k o) → t.code[o]? = s.code[o]?) ∧
      t.code.size = s.code.size ∧ t = { s with code := t.code, patches := #[] } ∧
      ∀ ranges', t.resolve ranges' = .done () t := by
  -- the jumps in `old` are settled, those in `new` are open
  obtain ⟨old, new, settled, rfl, hs⟩ := exists_written h
  obtain ⟨hframe, -, -⟩ := hs.lays.resolve hres
  refine ⟨fun k op cond body label hk htakes ↦ ?_, fun o ho ↦ hs.getElem?_resolve hres ho, ?_,
    hframe, fun ranges' ↦ ?_⟩
  · obtain ⟨o, hbound, hrange, hsettled, htarget⟩ := hs.target? hres hk htakes
    refine ⟨o, fun o' ↦ ⟨fun hbound' ↦ ?_, ?_⟩, fun pool ↦ htarget _ (List.prefix_refl _),
      fun hopen ↦ ?_, fun hopen pool ↦ ?_⟩
    · rw [← hs.labels] at hbound hbound'
      exact Option.some.inj (hbound'.symm.trans hbound)
    · rintro rfl
      exact hbound
    · have hany := hrange ((hs.isOpen_iff hk).1 hopen)
      rwa [Option.any_eq_true] at hany
    · rw [hs.isOpen_iff hk, Nat.not_le] at hopen
      exact hsettled hopen _ hs.settled_isPrefix
  · exact (Changed.resolve hres).size_eq
  · rw [hframe]
    rfl

/-- Jumps of two bodies in turn, forwards and backwards. The second pair is written behind the round
that fills in the first, and one of it leads back to a label from before. -/
def Edit.rounds : List Edit :=
  [.bind 0 1, .jump .jump none 1 1, .byte 255, .jump .jumpIf (some (.register 2)) 0 1, .bind 1 1,
    .opcode .nop [], .resolve #[⟨0, 13⟩, ⟨13, 14⟩], .jump .jumpIfNot (some (.cell 0)) 1 1,
    .jump .jump none 0 2, .bind 0 2, .opcode .nop []]

/-- The jump at position `3` leads back as before, that at position `7` to a label before the last
round, and the byte between the first two jumps, which looks like a blank one, stays. -/
theorem resolve_of_rounds :
    ∃ s t, perform Edit.rounds { recordLines := true } = .ok ([], s) ∧
      s.resolve #[⟨20, 27⟩, ⟨13, 14⟩] = .done () t ∧
      (s.image #[]).target? 6 = some 0 ∧ (t.image #[]).target? 6 = some 0 ∧
      (t.image #[]).target? 14 = some 13 ∧ (t.image #[]).target? 21 = some 26 ∧
      t.code[5]? = s.code[5]? ∧ t.code.size = s.code.size ∧ t.resolve #[] = .done () t := by
  have heval : (perform Edit.rounds { recordLines := true }).map
      (fun r ↦ r.1.isEmpty && match r.2.resolve #[⟨20, 27⟩, ⟨13, 14⟩] with
        | .done _ _ => true
        | _ => false) = .ok true := by
    decide +kernel
  obtain ⟨⟨es, s⟩, hperform, hfacts⟩ := exists_of_map_eq_ok heval
  obtain ⟨hes, hdone⟩ := Bool.and_eq_true_iff.1 hfacts
  obtain rfl := List.isEmpty_iff.1 hes
  obtain ⟨t, hres⟩ : ∃ t, s.resolve #[⟨20, 27⟩, ⟨13, 14⟩] = .done () t := by
    revert hdone
    cases s.resolve #[⟨20, 27⟩, ⟨13, 14⟩] with
    | done u t => exact fun _ ↦ ⟨t, rfl⟩
    | failed e t => nofun
    | fault f => nofun
  obtain ⟨hjumps, hbytes, hsize, -, hagain⟩ := resolve_of_perform hperform hres
  obtain ⟨o₃, hbound₃, htarget₃, -, hbefore₃⟩ := hjumps 3 _ _ _ _ rfl (by decide)
  obtain ⟨o₇, hbound₇, htarget₇, -, -⟩ := hjumps 7 _ _ _ _ rfl (by decide)
  obtain ⟨o₈, hbound₈, htarget₈, -, -⟩ := hjumps 8 _ _ _ _ rfl (by decide)
  obtain rfl := (hbound₃ 0).1 ⟨0, rfl, rfl⟩
  obtain rfl := (hbound₇ 13).1 ⟨4, rfl, rfl⟩
  obtain rfl := (hbound₈ 26).1 ⟨9, rfl, rfl⟩
  refine ⟨s, t, hperform, hres, hbefore₃ (fun hopen ↦ hopen 6 _ (by decide) rfl) _, htarget₃ _,
    htarget₇ _, htarget₈ _, hbytes 5 ?_, hsize, hagain _⟩
  -- of all edits only the byte itself ends within four bytes behind offset `5`
  have honly : ∀ k < 11, Edit.offset Edit.rounds (k + 1) ≤ 9 →
      5 < Edit.offset Edit.rounds (k + 1) → k = 2 := by decide
  rintro k - ⟨op, cond, body, label, hk, hle, hlt⟩
  obtain rfl := honly k (List.getElem?_eq_some_iff.1 hk).1 hle hlt
  cases hk

end Stream

end RegisterBytecode
