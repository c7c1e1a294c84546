import Mathlib.Data.List.Basic
import RegisterBytecode.Code.Stream

/-!
# The stream as chunks

While it is built, a stream consists of bytes that stay as they are and of blank distances that
are filled in at the end. A list of `Chunk`s says which is which. It determines the bytes with the
distances blank (`render blank`), the patches that are waiting (`patches`), and the bytes with
the distances filled in (`render` with the distances of the labels).

`Stream.Lays` ties a stream to its chunks. The main statement, `Stream.Lays.resolve`, is that
filling in all distances turns the one rendering into the other and changes nothing else. Every
patch overwrites exactly the four bytes of its own hole, so the holes can be filled from left to
right, each in front of what is still blank.
-/

namespace RegisterBytecode

/-- Consecutive content of a stream. -/
inductive Chunk where
  /-- Bytes that stay. -/
  | raw (bytes : List UInt8)
  /-- The distance of a jump to a label of a body. -/
  | hole (body : Nat) (label : Label)
  deriving DecidableEq, Repr

namespace Chunk

/-- The number of bytes of a chunk. -/
def size : Chunk → Nat
  | raw bytes => bytes.length
  | hole _ _ => 4

/-- The number of bytes of chunks. -/
def total : List Chunk → Nat
  | [] => 0
  | c :: cs => c.size + total cs

/-- The bytes of chunks that stand at an offset, where `dist` gives the distance that stands in
each hole, by the end of the hole, its body and its label. -/
def render (dist : Nat → Nat → Label → Int32) : Nat → List Chunk → List UInt8
  | _, [] => []
  | pos, raw bytes :: cs => bytes ++ render dist (pos + bytes.length) cs
  | pos, hole body label :: cs => int32Bytes (dist (pos + 4) body label) ++ render dist (pos + 4) cs

/-- The distance that stands in a hole until it is filled in. -/
def blank : Nat → Nat → Label → Int32 := fun _ _ _ ↦ -1

/-- The patches of chunks that stand at an offset. -/
def patches : Nat → List Chunk → List Patch
  | _, [] => []
  | pos, raw bytes :: cs => patches (pos + bytes.length) cs
  | pos, hole body label :: cs => ⟨body, label, pos, pos + 4⟩ :: patches (pos + 4) cs

@[simp] theorem total_nil : total [] = 0 := rfl

@[simp] theorem total_cons (c : Chunk) (cs : List Chunk) : total (c :: cs) = c.size + total cs :=
  rfl

@[simp] theorem total_append (cs ds : List Chunk) : total (cs ++ ds) = total cs + total ds := by
  induction cs with
  | nil => rw [List.nil_append, total_nil, Nat.zero_add]
  | cons c cs ih => rw [List.cons_append, total_cons, total_cons, ih, Nat.add_assoc]

/-- Distances do not change the number of bytes. -/
theorem length_render (dist : Nat → Nat → Label → Int32) (pos : Nat) (cs : List Chunk) :
    (render dist pos cs).length = total cs := by
  induction cs generalizing pos with
  | nil => rfl
  | cons c cs ih =>
    cases c with
    | raw bytes => rw [render, List.length_append, ih, total_cons, size]
    | hole body label =>
      rw [render, List.length_append, length_int32Bytes, ih, total_cons, size]

/-- Chunks are rendered part by part, each at its own offset. -/
theorem render_append (dist : Nat → Nat → Label → Int32) (pos : Nat) (cs ds : List Chunk) :
    render dist pos (cs ++ ds) = render dist pos cs ++ render dist (pos + total cs) ds := by
  induction cs generalizing pos with
  | nil => rfl
  | cons c cs ih =>
    cases c with
    | raw bytes =>
      rw [List.cons_append, render, render, ih, List.append_assoc, total_cons, size,
        Nat.add_assoc]
    | hole body label =>
      rw [List.cons_append, render, render, ih, List.append_assoc, total_cons, size,
        Nat.add_assoc]

/-- Chunks are patched part by part, each at its own offset. -/
theorem patches_append (pos : Nat) (cs ds : List Chunk) :
    patches pos (cs ++ ds) = patches pos cs ++ patches (pos + total cs) ds := by
  induction cs generalizing pos with
  | nil => rfl
  | cons c cs ih =>
    cases c with
    | raw bytes => rw [List.cons_append, patches, patches, ih, total_cons, size, Nat.add_assoc]
    | hole body label =>
      rw [List.cons_append, patches, patches, ih, total_cons, size, Nat.add_assoc,
        List.cons_append]

end Chunk

namespace Stream

/-! ### One patch -/

/-- Overwriting replaces as many bytes as it writes. -/
theorem toList_writeAt {new old pre post : List UInt8} {code : Array UInt8}
    (hcode : code.toList = pre ++ (old ++ post)) (hlen : old.length = new.length) :
    (writeAt new pre.length code).toList = pre ++ (new ++ post) := by
  induction new generalizing old pre code with
  | nil =>
    obtain rfl : old = [] := List.length_eq_zero_iff.1 hlen
    exact hcode
  | cons b new ih =>
    cases old with
    | nil => cases hlen
    | cons a old =>
      have hset : (code.setIfInBounds pre.length b).toList = (pre ++ [b]) ++ (old ++ post) := by
        rw [Array.toList_setIfInBounds, hcode, List.set_append_right _ _ (Nat.le_refl _),
          Nat.sub_self]
        simp
      have hrest := ih hset (Nat.succ.inj hlen)
      rw [List.length_append, List.length_singleton] at hrest
      rw [writeAt, hrest]
      simp

/-- A label's offset can be filled in for a patch: it is bound, in its body and near enough. -/
def Resolves (s : Stream) (ranges : Array Range) (p : Patch) : Prop :=
  ∃ target d, s.labels[(p.body, p.label)]? = some target ∧
    (ranges[p.body]?).any (·.contains target) = true ∧ distance? p.origin target = some d

/-- The distance from the end of a hole to a label of a stream. -/
def distanceOf (s : Stream) (origin body : Nat) (label : Label) : Int32 :=
  ((s.labels[(body, label)]?).bind (distance? origin)).getD 0

theorem labels_overwrite (s : Stream) (position : Nat) (bytes : List UInt8) :
    (s.overwrite position bytes).labels = s.labels := rfl

theorem patches_overwrite (s : Stream) (position : Nat) (bytes : List UInt8) :
    (s.overwrite position bytes).patches = s.patches := rfl

/-- Overwriting changes nothing but bytes. -/
theorem withCode_overwrite (s : Stream) (position : Nat) (bytes : List UInt8)
    (code : Array UInt8) : { s.overwrite position bytes with code } = { s with code } := by
  unfold overwrite
  rfl

theorem distanceOf_overwrite (s : Stream) (position : Nat) (bytes : List UInt8) :
    (s.overwrite position bytes).distanceOf = s.distanceOf := rfl

/-- Whether a patch can be filled in depends on labels only, and no patch changes those. -/
theorem resolves_overwrite {s : Stream} {ranges : Array Range} {p : Patch} {position : Nat}
    {bytes : List UInt8} : (s.overwrite position bytes).Resolves ranges p ↔ s.Resolves ranges p :=
  Iff.rfl

/-- A patch that is filled in could be, and it has overwritten its hole with the distance. -/
theorem patch_eq_done {s t : Stream} {ranges : Array Range} {p : Patch} {u : Unit}
    (h : s.patch ranges p = .done u t) :
    s.Resolves ranges p ∧
      t = s.overwrite p.position (int32Bytes (s.distanceOf p.origin p.body p.label)) := by
  unfold patch at h
  split at h
  · cases h
  · next target hlabel =>
    split at h
    · next hrange =>
      split at h
      · next d hd =>
        cases h
        refine ⟨⟨target, d, hlabel, hrange, hd⟩, ?_⟩
        rw [distanceOf, hlabel, Option.bind_some, hd, Option.getD_some]
      · cases h
    · cases h

/-- A patch that can be filled in is no fault. -/
theorem patch_ne_fault {s : Stream} {ranges : Array Range} {p : Patch} {target : Nat}
    (hlabel : s.labels[(p.body, p.label)]? = some target)
    (hrange : (ranges[p.body]?).any (·.contains target) = true) (f : Fault) :
    s.patch ranges p ≠ .fault f := by
  unfold patch
  rw [hlabel]
  dsimp only
  rw [if_pos hrange]
  split <;> nofun

/-! ### All patches -/

/-- **Holes are filled from left to right.** What stands before the first hole is final, what
stands behind it is still blank. -/
theorem patchAll_patches {ranges : Array Range} {cs : List Chunk} {s t : Stream} {u : Unit}
    {pre post : List UInt8}
    (hcode : s.code.toList = pre ++ (Chunk.render Chunk.blank pre.length cs ++ post))
    (h : patchAll ranges (Chunk.patches pre.length cs) s = .done u t) :
    t = { s with code := t.code } ∧
      t.code.toList = pre ++ (Chunk.render s.distanceOf pre.length cs ++ post) ∧
      ∀ p ∈ Chunk.patches pre.length cs, s.Resolves ranges p := by
  induction cs generalizing s pre with
  | nil =>
    cases h
    exact ⟨rfl, hcode, nofun⟩
  | cons c cs ih =>
    cases c with
    | raw bytes =>
      -- bytes that stay join those that are final
      rw [Chunk.render, List.append_assoc, ← List.append_assoc] at hcode
      rw [Chunk.patches] at h
      rw [← List.length_append] at hcode h
      obtain ⟨hframe, hout, hres⟩ := ih hcode h
      rw [Chunk.patches, Chunk.render, List.append_assoc, ← List.append_assoc,
        ← List.length_append]
      exact ⟨hframe, hout, hres⟩
    | hole body label =>
      rw [Chunk.patches, patchAll] at h
      obtain ⟨v, s', hp, h⟩ := Outcome.bind_eq_done h
      obtain ⟨hres, rfl⟩ := patch_eq_done hp
      rw [Chunk.render, List.append_assoc] at hcode
      -- once the hole is filled, its four bytes are final too
      set d := s.distanceOf (pre.length + 4) body label
      have hnew : (s.overwrite pre.length (int32Bytes d)).code.toList =
          (pre ++ int32Bytes d) ++
            (Chunk.render Chunk.blank (pre ++ int32Bytes d).length cs ++ post) := by
        rw [List.append_assoc, List.length_append, length_int32Bytes]
        exact toList_writeAt hcode rfl
      have hlen : pre.length + 4 = (pre ++ int32Bytes d).length := by
        rw [List.length_append, length_int32Bytes]
      rw [hlen] at h
      obtain ⟨hframe, hout, hrest⟩ := ih hnew h
      rw [withCode_overwrite] at hframe
      rw [distanceOf_overwrite] at hout
      refine ⟨hframe, ?_, ?_⟩
      · show t.code.toList =
          pre ++ ((int32Bytes d ++ Chunk.render s.distanceOf (pre.length + 4) cs) ++ post)
        rw [List.append_assoc, ← List.append_assoc, hlen]
        exact hout
      · intro p hp
        rcases List.mem_cons.1 hp with rfl | hp
        · exact hres
        · rw [hlen] at hp
          exact resolves_overwrite.1 (hrest p hp)

/-- Patches that can all be filled in are no fault. -/
theorem patchAll_ne_fault {ranges : Array Range} {ps : List Patch} {s : Stream}
    (h : ∀ p ∈ ps, ∃ target, s.labels[(p.body, p.label)]? = some target ∧
      (ranges[p.body]?).any (·.contains target) = true) (f : Fault) :
    patchAll ranges ps s ≠ .fault f := by
  induction ps generalizing s f with
  | nil => nofun
  | cons p ps ih =>
    obtain ⟨target, hlabel, hrange⟩ := h p List.mem_cons_self
    rw [patchAll]
    refine Outcome.bind_ne_fault (patch_ne_fault hlabel hrange) (fun v s' hp ↦ ?_) f
    obtain ⟨-, rfl⟩ := patch_eq_done hp
    refine ih fun q hq ↦ ?_
    rw [labels_overwrite]
    exact h q (List.mem_cons_of_mem _ hq)

/-! ### Streams and their chunks -/

/-- A stream holds chunks whose distances are blank, and waits for their patches. -/
structure Lays (s : Stream) (cs : List Chunk) : Prop where
  code : s.code.toList = Chunk.render Chunk.blank 0 cs
  patches : s.patches.toList = Chunk.patches 0 cs

theorem Lays.size {s : Stream} {cs : List Chunk} (h : s.Lays cs) :
    s.code.size = Chunk.total cs := by
  rw [← Array.length_toList, h.code, Chunk.length_render]

/-- **Filling in the distances** turns the blank rendering into the one with the distances of the
labels, and changes nothing else of the stream but that no patch is left. -/
theorem Lays.resolve {s t : Stream} {cs : List Chunk} (hs : s.Lays cs) {ranges : Array Range}
    {u : Unit} (h : s.resolve ranges = .done u t) :
    t = { s with code := t.code, patches := #[] } ∧
      t.code.toList = Chunk.render s.distanceOf 0 cs ∧
      ∀ p ∈ Chunk.patches 0 cs, s.Resolves ranges p := by
  rw [Stream.resolve, hs.patches] at h
  have hcode : ({ s with patches := #[] } : Stream).code.toList =
      [] ++ (Chunk.render Chunk.blank ([] : List UInt8).length cs ++ []) := by
    simpa using hs.code
  obtain ⟨hframe, hout, hres⟩ := patchAll_patches hcode h
  rw [List.nil_append, List.append_nil] at hout
  exact ⟨hframe, hout, hres⟩

end Stream

end RegisterBytecode
