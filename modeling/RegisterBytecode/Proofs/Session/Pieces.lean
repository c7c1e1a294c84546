import RegisterBytecode.Proofs.Session.Halting

/-!
# What bodies leave in the stream

A session may go on after an error. Then its stream holds not only bodies that were compiled to
their end: the one that was refused a slot has left its first instructions, under an ordinal and
behind a start of its own. A `Piece` is what one body has left, and `Session.Placed` says that the
stream of a session is the pieces of certain constants, in order and with nothing in between, and
that the ranges it has noted are theirs.

This is `Job.Laid` without the assumption that nothing went wrong, and it says less: nothing about
labels, and nothing about the distances of jumps, which may be blank, filled in, or filled in up to
one that was too far. What holds in all these cases is that the bytes agree with the chunks of the
pieces (`Chunk.Agrees`): beside the four bytes of each distance they are fixed.

Only compiling a constant adds a piece (`Session.Placed.compileConstant`), and filling in jumps
keeps them all, whether it comes to its end or not (`Stream.Holds.resolve`).
-/

namespace RegisterBytecode

/-! ### Bytes that agree with chunks -/

namespace Chunk

/-- Bytes agree with chunks: they are the bytes of the chunks, with some distance in every hole. -/
def Agrees : List Chunk → List UInt8 → Prop
  | [], bs => bs = []
  | raw bytes :: cs, bs => ∃ rest, bs = bytes ++ rest ∧ Agrees cs rest
  | hole _ _ :: cs, bs => ∃ d rest, bs = int32Bytes d ++ rest ∧ Agrees cs rest

variable {cs ds : List Chunk} {bs bs' : List UInt8}

/-- Agreement goes part by part. -/
theorem Agrees.append (h : Agrees cs bs) (h' : Agrees ds bs') : Agrees (cs ++ ds) (bs ++ bs') := by
  induction cs generalizing bs with
  | nil =>
    obtain rfl : bs = [] := h
    exact h'
  | cons c cs ih =>
    cases c with
    | raw bytes =>
      obtain ⟨rest, rfl, hrest⟩ := h
      exact ⟨rest ++ bs', List.append_assoc .., ih hrest⟩
    | hole body label =>
      obtain ⟨d, rest, rfl, hrest⟩ := h
      exact ⟨d, rest ++ bs', List.append_assoc .., ih hrest⟩

/-- Whatever the distances are, a rendering agrees with its chunks. -/
theorem agrees_render (dist : Nat → Nat → Label → Int32) (pos : Nat) (cs : List Chunk) :
    Agrees cs (render dist pos cs) := by
  induction cs generalizing pos with
  | nil => rfl
  | cons c cs ih =>
    cases c with
    | raw bytes => exact ⟨_, rfl, ih _⟩
    | hole body label => exact ⟨_, _, rfl, ih _⟩

theorem Agrees.length_eq (h : Agrees cs bs) : bs.length = total cs := by
  induction cs generalizing bs with
  | nil => rw [show bs = [] from h, List.length_nil, total_nil]
  | cons c cs ih =>
    cases c with
    | raw bytes =>
      obtain ⟨rest, rfl, hrest⟩ := h
      rw [List.length_append, ih hrest, total_cons, size]
    | hole body label =>
      obtain ⟨d, rest, rfl, hrest⟩ := h
      rw [List.length_append, length_int32Bytes, ih hrest, total_cons, size]

end Chunk

namespace Stream

variable {s t : Stream} {cs es : List Chunk} {ranges : Array Range}

/-- A distance that does not fit leaves the stream as it is. -/
theorem patch_eq_failed {p : Patch} {e : CompileError} (h : s.patch ranges p = .failed e t) :
    t = s := by
  rw [patch] at h
  split at h
  · cases h
  · split at h
    · split at h
      · cases h
      · exact (Outcome.failed.inj h).2.symm
    · cases h

/-- What filling in distances of chunks behind the bytes `pre` leaves: some distance in each hole,
and the patches `ps` as they were. -/
structure Filled (pre : List UInt8) (cs : List Chunk) (ps : Array Patch) (t : Stream) : Prop where
  patches : t.patches = ps
  code : ∃ bs, Chunk.Agrees cs bs ∧ t.code.toList = pre ++ bs

/-- The first chunk may be counted among the bytes before. -/
theorem Filled.cons {pre bs : List UInt8} {c : Chunk} {ps : Array Patch}
    (h : Filled (pre ++ bs) cs ps t) (hc : Chunk.Agrees [c] bs) : Filled pre (c :: cs) ps t := by
  obtain ⟨hpatches, bs', hbs, hcode⟩ := h
  refine ⟨hpatches, bs ++ bs', hc.append hbs, ?_⟩
  rw [hcode, List.append_assoc]

/-- **Filling in distances writes into holes only**, and so it does if it stops at one of them. -/
theorem patchAll_filled {pre : List UInt8}
    (hcode : s.code.toList = pre ++ Chunk.render Chunk.blank pre.length cs) :
    (patchAll ranges (Chunk.patches pre.length cs) s).Ends (fun _ ↦ Filled pre cs s.patches)
      (Filled pre cs s.patches) fun _ ↦ True := by
  induction cs generalizing s pre with
  | nil => exact ⟨rfl, [], rfl, hcode⟩
  | cons c cs ih =>
    cases c with
    | raw bytes =>
      have hraw : Chunk.Agrees [.raw bytes] bytes := ⟨[], (List.append_nil _).symm, rfl⟩
      rw [Chunk.render, ← List.append_assoc, ← List.length_append] at hcode
      rw [Chunk.patches, ← List.length_append]
      exact (ih hcode).mono (fun _ _ h ↦ h.cons hraw) (fun _ h ↦ h.cons hraw) fun _ hf ↦ hf
    | hole body label =>
      rw [Chunk.patches, patchAll]
      cases hp : s.patch ranges ⟨body, label, pre.length, pre.length + 4⟩ with
      | done u s' =>
        obtain ⟨-, rfl⟩ := patch_eq_done hp
        rw [Chunk.render] at hcode
        -- the distance that is written joins the bytes before, and those behind are still blank
        generalize s.distanceOf (pre.length + 4) body label = d
        have hhole : Chunk.Agrees [.hole body label] (int32Bytes d) :=
          ⟨d, [], (List.append_nil _).symm, rfl⟩
        have hlen : pre.length + 4 = (pre ++ int32Bytes d).length := by
          rw [List.length_append, length_int32Bytes]
        have hnew : (s.overwrite pre.length (int32Bytes d)).code.toList =
            (pre ++ int32Bytes d) ++ Chunk.render Chunk.blank (pre ++ int32Bytes d).length cs := by
          rw [← hlen, List.append_assoc]
          exact toList_writeAt hcode rfl
        have hrest := ih hnew
        rw [patches_overwrite] at hrest
        rw [hlen]
        exact hrest.mono (fun _ _ h ↦ h.cons hhole) (fun _ h ↦ h.cons hhole) fun _ hf ↦ hf
      | failed e s' =>
        obtain rfl := patch_eq_failed hp
        exact ⟨rfl, _, Chunk.agrees_render .., hcode⟩
      | fault f => trivial

/-! ### Streams that hold chunks -/

/-- A stream holds chunks. Up to the last time that jumps were filled in its bytes agree with them;
behind that the distances are blank and wait for their patches. -/
def Holds (cs : List Chunk) (s : Stream) : Prop :=
  ∃ old new settled, cs = old ++ new ∧ Chunk.Agrees old settled ∧ s.Lays (.raw settled :: new)

theorem holds_start (recordLines : Bool) : Holds [] { recordLines } :=
  ⟨[], [], [], rfl, rfl, rfl, rfl⟩

/-- What appends chunks to any stream appends them to one that holds chunks. -/
theorem Holds.append (h : s.Holds cs) (hst : ∀ ds, s.Lays ds → t.Lays (ds ++ es)) :
    t.Holds (cs ++ es) := by
  obtain ⟨old, new, settled, rfl, hold, hlays⟩ := h
  exact ⟨old, new ++ es, settled, List.append_assoc .., hold, hst _ hlays⟩

/-- The current line is no part of what a stream holds. -/
theorem Holds.setLine (h : s.Holds cs) (line : Nat) : (s.setLine line).Holds cs := by
  obtain ⟨old, new, settled, rfl, hold, hlays⟩ := h
  exact ⟨old, new, settled, rfl, hold, hlays.setLine line⟩

/-- What a stream holds are its bytes, up to distances. -/
theorem Holds.agrees (h : s.Holds cs) : Chunk.Agrees cs s.code.toList := by
  obtain ⟨old, new, settled, rfl, hold, hlays⟩ := h
  rw [hlays.code, Chunk.render]
  exact hold.append (Chunk.agrees_render ..)

theorem Holds.size_eq (h : s.Holds cs) : s.code.size = Chunk.total cs := by
  rw [← Array.length_toList, h.agrees.length_eq]

/-- **Filling in jumps** keeps the chunks, all the way or up to a jump that is too far. -/
theorem Holds.resolve (h : s.Holds cs) (ranges : Array Range) :
    (s.resolve ranges).Ends (fun _ ↦ Holds cs) (Holds cs) fun _ ↦ True := by
  obtain ⟨old, new, settled, rfl, hold, hlays⟩ := h
  have hdone : ∀ t, Filled [] (.raw settled :: new) #[] t → t.Holds (old ++ new) := by
    rintro t ⟨hpatches, -, ⟨bs, rfl, hbs⟩, hcode⟩
    refine ⟨old ++ new, [], t.code.toList, (List.append_nil _).symm, ?_, ?_, ?_⟩
    · rw [hcode]
      exact hold.append hbs
    · rw [Chunk.render, Chunk.render, List.append_nil]
    · rw [hpatches]
      rfl
  have hcode : ({ s with patches := #[] } : Stream).code.toList =
      [] ++ Chunk.render Chunk.blank ([] : List UInt8).length (.raw settled :: new) := hlays.code
  rw [Stream.resolve, hlays.patches]
  exact (patchAll_filled hcode).mono (fun _ ↦ hdone) hdone fun _ hf ↦ hf

end Stream

/-! ### Pieces -/

/-- What the compilation of a body has left in the stream. -/
inductive Piece where
  /-- All instructions, and one more operation if then a label stood at the end of the stream. -/
  | whole (segment : Segment) (padded : Bool)
  /-- The instructions before one for whose constant there was no slot. -/
  | cut (segment : Segment) (length : Nat)

namespace Piece

/-- The body that has left a piece. -/
def segment : Piece → Segment
  | whole g _ => g
  | cut g _ => g

/-- The instructions of a piece. -/
def instrs : Piece → List Instr
  | whole g _ => g.body.code.toList
  | cut g n => g.body.code.toList.take n

/-- The operations of a piece. -/
def ops (job : Job) (order : List ConstIndex) : Piece → List (Op Operand)
  | whole g padded => job.codeOps order g.frame g.body.code.toList ++ padding padded
  | cut g n => job.codeOps order g.frame (g.body.code.toList.take n)

/-- The range that is noted for a piece. Its end is noted behind the last instruction, and so it is
not if that is never reached. -/
def range (job : Job) (order : List ConstIndex) (start : Nat) : Piece → Range
  | whole g padded => ⟨start, start + Op.total ((whole g padded).ops job order)⟩
  | cut _ _ => ⟨start, start⟩

end Piece

namespace Job

/-- The chunks of pieces, each under its own ordinal. -/
def pieceChunks (job : Job) (order : List ConstIndex) (ps : List Piece) : List Chunk :=
  ps.zipIdx.flatMap fun x ↦ (x.1.ops job order).flatMap (Op.chunks x.2)

/-- What a constant adds to those whose bodies have left something in the stream: itself, if it is a
body for which storage can be chosen. -/
def emitting (job : Job) (c : ConstIndex) : List ConstIndex :=
  if (job.segment? c).isSome then [c] else []

/-- The ranges of pieces, the first of which starts at `offset`. -/
def pieceRanges (job : Job) (order : List ConstIndex) : Nat → List Piece → List Range
  | _, [] => []
  | offset, p :: ps =>
    p.range job order offset :: job.pieceRanges order (offset + Op.total (p.ops job order)) ps

variable {job : Job} {order fresh : List ConstIndex} {p : Piece} {ps : List Piece} {offset : Nat}

theorem pieceChunks_concat :
    job.pieceChunks order (ps ++ [p]) =
      job.pieceChunks order ps ++ (p.ops job order).flatMap (Op.chunks ps.length) := by
  rw [pieceChunks, List.zipIdx_append, List.flatMap_append, pieceChunks]
  simp

theorem total_pieceChunks :
    Chunk.total (job.pieceChunks order ps) = Op.total (ps.flatMap (Piece.ops job order)) := by
  induction ps using List.reverseRecOn with
  | nil => rfl
  | append_singleton ps p ih =>
    rw [pieceChunks_concat, Chunk.total_append, ih, Op.total_flatMap_chunks, List.flatMap_append,
      List.flatMap_singleton, Op.total_append]

/-- The last piece starts where all others end. -/
theorem pieceRanges_concat :
    job.pieceRanges order offset (ps ++ [p]) = job.pieceRanges order offset ps ++
      [p.range job order (offset + Op.total (ps.flatMap (Piece.ops job order)))] := by
  induction ps generalizing offset with
  | nil => rfl
  | cons q ps ih =>
    rw [List.cons_append, pieceRanges, pieceRanges, ih, List.flatMap_cons, Op.total_append,
      Nat.add_assoc, List.cons_append]

theorem length_pieceRanges : (job.pieceRanges order offset ps).length = ps.length := by
  induction ps generalizing offset with
  | nil => rfl
  | cons p ps ih => rw [pieceRanges, List.length_cons, ih, List.length_cons]

/-- A piece stays what it is when more constants are asked for. -/
theorem ops_append_order (h : ∀ i ∈ p.instrs, job.Supplied order i) :
    p.ops job (order ++ fresh) = p.ops job order := by
  cases p with
  | whole g padded =>
    have hcode : job.codeOps (order ++ fresh) g.frame g.body.code.toList =
        job.codeOps order g.frame g.body.code.toList := codeOps_append h g.frame
    rw [Piece.ops, hcode, Piece.ops]
  | cut g n => exact codeOps_append h g.frame

theorem pieceChunks_append_order (h : ∀ p ∈ ps, ∀ i ∈ p.instrs, job.Supplied order i) :
    job.pieceChunks (order ++ fresh) ps = job.pieceChunks order ps := by
  refine List.flatMap_congr fun x hx ↦ ?_
  rw [ops_append_order (h x.1 (List.fst_mem_of_mem_zipIdx hx))]

theorem pieceRanges_append_order (h : ∀ p ∈ ps, ∀ i ∈ p.instrs, job.Supplied order i) :
    job.pieceRanges (order ++ fresh) offset ps = job.pieceRanges order offset ps := by
  induction ps generalizing offset with
  | nil => rfl
  | cons p ps ih =>
    have hops : p.ops job (order ++ fresh) = p.ops job order :=
      ops_append_order (h p List.mem_cons_self)
    have hrange : p.range job (order ++ fresh) offset = p.range job order offset := by
      cases p with
      | whole g padded => rw [Piece.range, hops, Piece.range]
      | cut g n => rfl
    rw [pieceRanges, hops, hrange, ih fun q hq ↦ h q (List.mem_cons_of_mem _ hq), pieceRanges]

end Job

namespace Session

/-! ### Sessions -/

/-- The stream of a session holds pieces, one behind the other, and the session has noted their
ranges. -/
structure HoldsPieces (job : Job) (order : List ConstIndex) (ps : List Piece) (s : Session) :
    Prop where
  supplied : ∀ p ∈ ps, ∀ i ∈ p.instrs, job.Supplied order i
  stream : s.stream.Holds (job.pieceChunks order ps)
  ranges : s.ranges.toList = job.pieceRanges order 0 ps

/-- The pieces in the stream of a session are those of the bodies of constants `cs`. -/
def Placed (job : Job) (cs : List ConstIndex) (s : Session) : Prop :=
  ∃ order ps, s.Reserved job order ∧ s.HoldsPieces job order ps ∧
    cs.map job.segment? = ps.map fun p ↦ some p.segment

variable {job : Job} {order fresh cs : List ConstIndex} {p : Piece} {ps : List Piece}
  {s t : Session} {c : ConstIndex}

/-- What a session holds stays what it is when more constants are asked for. -/
theorem HoldsPieces.append_order (h : s.HoldsPieces job order ps) :
    s.HoldsPieces job (order ++ fresh) ps where
  supplied p hp i hi := (h.supplied p hp i hi).append fresh
  stream := by
    rw [Job.pieceChunks_append_order h.supplied]
    exact h.stream
  ranges := by
    rw [Job.pieceRanges_append_order h.supplied]
    exact h.ranges

theorem HoldsPieces.size_ranges (h : s.HoldsPieces job order ps) : s.ranges.size = ps.length := by
  rw [← Array.length_toList, h.ranges, Job.length_pieceRanges]

/-- The stream ends where the next piece would start. -/
theorem HoldsPieces.size_code (h : s.HoldsPieces job order ps) :
    s.stream.code.size = Op.total (ps.flatMap (Piece.ops job order)) := by
  rw [h.stream.size_eq, Job.total_pieceChunks]

/-- One more piece: its operations stand behind the others, and its range is noted last. -/
theorem HoldsPieces.concat (h : s.HoldsPieces job order ps)
    (hp : ∀ i ∈ p.instrs, job.Supplied order i)
    (hstream : t.stream.Holds
      (job.pieceChunks order ps ++ (p.ops job order).flatMap (Op.chunks ps.length)))
    (hranges : t.ranges = s.ranges.push (p.range job order s.stream.code.size)) :
    t.HoldsPieces job order (ps ++ [p]) where
  supplied q hq := by
    rcases List.mem_append.1 hq with hq | hq
    · exact h.supplied q hq
    · rwa [List.mem_singleton.1 hq]
  stream := by
    rw [Job.pieceChunks_concat]
    exact hstream
  ranges := by
    rw [hranges, Array.toList_push, h.ranges, Job.pieceRanges_concat, h.size_code, Nat.zero_add]

section Emission

variable {body : Body} {frame : Frame} {code : List (Instr × Nat)}

/-- What has been emitted of a body stands behind the pieces. -/
theorem HoldsPieces.emits (h : s.HoldsPieces job order ps)
    (he : Emits job frame.home s.ranges.size order code
      { s with ranges := s.ranges.push ⟨s.stream.code.size, s.stream.code.size⟩ } fresh t) :
    t.stream.Holds (job.pieceChunks (order ++ fresh) ps ++
      (job.codeOps (order ++ fresh) frame (code.map Prod.fst)).flatMap (Op.chunks ps.length)) := by
  refine h.append_order.stream.append fun ds hds ↦ ?_
  rw [he.stream, h.size_ranges]
  exact hds.lay fun i ↦ Job.ops_eq_nil_iff

/-- **A whole body**: when all of it has been emitted, its padding and its range are completed. -/
theorem HoldsPieces.whole (h : s.HoldsPieces job order ps)
    (he : Emits job frame.home s.ranges.size order body.lined
      { s with ranges := s.ranges.push ⟨s.stream.code.size, s.stream.code.size⟩ } fresh t) :
    HoldsPieces job (order ++ fresh) (ps ++ [.whole ⟨body, frame⟩ t.stream.labelAtEnd])
      { t with
        stream := t.stream.pad
        ranges := t.ranges.setIfInBounds s.ranges.size
          ⟨s.stream.code.size, t.stream.pad.code.size⟩ } := by
  have hstream := (h.emits he).append fun ds hds ↦ hds.pad ps.length
  rw [body.map_fst_lined, List.append_assoc, ← List.flatMap_append] at hstream
  refine h.append_order.concat (fun i hi ↦ ?_) hstream ?_
  · have hi : i ∈ body.lined.map Prod.fst := body.map_fst_lined ▸ hi
    obtain ⟨x, hx, rfl⟩ := List.mem_map.1 hi
    exact he.supplied x hx
  · have hstop : t.stream.pad.code.size = s.stream.code.size +
        Op.total ((Piece.whole ⟨body, frame⟩ t.stream.labelAtEnd).ops job (order ++ fresh)) := by
      rw [hstream.size_eq, Chunk.total_append, ← h.append_order.stream.size_eq,
        Op.total_flatMap_chunks]
      rfl
    rw [he.reserves.ranges, setIfInBounds_push_size, hstop]
    rfl

/-- **A body that is cut short** before the instruction at position `k`: its range stays empty. -/
theorem HoldsPieces.cut (h : s.HoldsPieces job order ps) {k line : Nat}
    (he : Emits job frame.home s.ranges.size order (body.lined.take k)
      { s with ranges := s.ranges.push ⟨s.stream.code.size, s.stream.code.size⟩ } fresh t) :
    (t.setLine line).HoldsPieces job (order ++ fresh) (ps ++ [.cut ⟨body, frame⟩ k]) := by
  have hcode : (body.lined.take k).map Prod.fst = body.code.toList.take k := by
    rw [List.map_take, body.map_fst_lined]
  have hstream := (h.emits he).setLine line
  rw [hcode] at hstream
  refine h.append_order.concat (fun i hi ↦ ?_) hstream he.reserves.ranges
  have hi : i ∈ (body.lined.take k).map Prod.fst := hcode ▸ hi
  obtain ⟨x, hx, rfl⟩ := List.mem_map.1 hi
  exact he.supplied x hx

end Emission

/-- Behind the pieces `ps` there is one more, and it is that of a segment. -/
def LeavesPiece (job : Job) (ps : List Piece) (g : Segment) (t : Session) : Prop :=
  ∃ order p, t.Reserved job order ∧ t.HoldsPieces job order (ps ++ [p]) ∧ p.segment = g

/-- **A body leaves a piece** behind the others: all of it, or what precedes an instruction that is
refused. -/
theorem HoldsPieces.compileBody (h : s.HoldsPieces job order ps) (hs : s.Reserved job order)
    {body : Body} {frame : Frame} (ha : Frame.allocate body = .ok frame) :
    (s.compileBody job body frame).Ends (fun _ ↦ LeavesPiece job ps ⟨body, frame⟩)
      (LeavesPiece job ps ⟨body, frame⟩) fun _ ↦ True := by
  have hs₀ : Reserved job
      { s with ranges := s.ranges.push ⟨s.stream.code.size, s.stream.code.size⟩ } order :=
    hs.of_slots_eq rfl
  have hh : ∀ x ∈ body.lined, ∀ r ∈ x.1.regs, frame.operand r = .ok (frame.home r) :=
    fun _ hx _ ↦ Frame.operand_home_of_mem_lined ha hx
  cases hc : s.compileBody job body frame with
  | done f t =>
    obtain ⟨s', hemit, hrange, -, rfl⟩ := compileBody_eq_done hc
    obtain ⟨fresh, he⟩ := emits_of_emitAll hs₀ hh hemit
    rw [hrange]
    exact ⟨_, _, he.reserved.of_slots_eq rfl, h.whole he, rfl⟩
  | failed e t =>
    rw [Session.compileBody] at hc
    rcases Outcome.bind_eq_failed hc with hemit | ⟨u, s', -, hdone⟩
    · obtain ⟨k, i, line, fresh, s', c, -, he, -, -, rfl⟩ := hs₀.refused_of_emitAll hh hemit
      exact ⟨_, _, he.reserved.of_slots_eq rfl, h.cut he, rfl⟩
    · cases hdone
  | fault f => trivial

/-- A constant whose body leaves a piece is one more of those that have. -/
theorem LeavesPiece.placed {g : Segment} (h : t.LeavesPiece job ps g)
    (hcs : cs.map job.segment? = ps.map fun p ↦ some p.segment) (hc : job.segment? c = some g) :
    t.Placed job (cs ++ [c]) := by
  obtain ⟨order, p, hs, hps, rfl⟩ := h
  refine ⟨order, ps ++ [p], hs, hps, ?_⟩
  rw [List.map_append, List.map_append, hcs, List.map_singleton, List.map_singleton, hc]

/-- Pieces depend on nothing but slots, the stream and the noted ranges. -/
theorem Placed.of_eq (h : s.Placed job cs) (hslots : t.slots = s.slots)
    (hstream : t.stream = s.stream) (hranges : t.ranges = s.ranges) : t.Placed job cs := by
  obtain ⟨order, ps, hs, hps, hcs⟩ := h
  exact ⟨order, ps, hs.of_slots_eq hslots,
    ⟨hps.supplied, hstream ▸ hps.stream, hranges ▸ hps.ranges⟩, hcs⟩

theorem placed_start (job : Job) : (start job).Placed job [] :=
  ⟨[], [], reserved_start job, ⟨nofun, Stream.holds_start _, rfl⟩, rfl⟩

/-- One range is noted for every body that has left something. -/
theorem Placed.size_ranges (h : s.Placed job cs) : s.ranges.size = cs.length := by
  obtain ⟨order, ps, -, hps, hcs⟩ := h
  have hlength := congrArg List.length hcs
  rw [List.length_map, List.length_map] at hlength
  rw [hps.size_ranges, hlength]

/-- A request leaves the stream alone, granted or refused. -/
theorem Placed.request (h : s.Placed job cs) (c : ConstIndex) :
    (s.request job c).Ends (fun _ ↦ Placed job cs) (Placed job cs) fun _ ↦ True := by
  obtain ⟨order, ps, hs, hps, hcs⟩ := h
  cases hr : s.request job c with
  | done v t =>
    obtain ⟨fresh, -, ht, hkeep, hstream⟩ := hs.request hr
    have hps' : s.HoldsPieces job (order ++ fresh) ps := hps.append_order
    exact ⟨order ++ fresh, ps, ht,
      ⟨hps'.supplied, hstream ▸ hps'.stream, hkeep.ranges ▸ hps'.ranges⟩, hcs⟩
  | failed e t =>
    obtain rfl := request_eq_failed hr
    exact ⟨order, ps, hs, hps, hcs⟩
  | fault f => trivial

/-- **A constant** adds to the bodies in the stream exactly if it is one for which storage can be
chosen, whether its compilation comes to its end or not. -/
theorem Placed.compileConstant (h : s.Placed job cs) (c : ConstIndex) :
    (s.compileConstant job c).Ends (fun _ ↦ Placed job (cs ++ job.emitting c))
      (Placed job (cs ++ job.emitting c)) fun _ ↦ True := by
  obtain ⟨order, ps, hs, hps, hcs⟩ := h
  -- a constant without a segment leaves the session as it is, whether it fails or not
  have hsame : job.segment? c = none → s.Placed job (cs ++ job.emitting c) := by
    intro hnone
    rw [Job.emitting, hnone, Option.isSome_none, if_neg Bool.false_ne_true, List.append_nil]
    exact ⟨order, ps, hs, hps, hcs⟩
  rw [Session.compileConstant]
  split
  case h_7 body hc =>
    split
    · next stop ha =>
      cases stop with
      | error e =>
        refine hsame ?_
        rw [Job.segment?, hc]
        dsimp only
        rw [ha]
      | fault f => trivial
    · next frame ha =>
      have hg : job.segment? c = some ⟨body, frame⟩ := Job.segment?_eq_some_iff.2 ⟨hc, ha⟩
      have hplaced : ∀ t, LeavesPiece job ps ⟨body, frame⟩ t →
          t.Placed job (cs ++ job.emitting c) := by
        intro t ht
        rw [Job.emitting, hg, Option.isSome_some, if_pos rfl]
        exact ht.placed hcs hg
      exact ((hps.compileBody hs ha).mono (fun _ ↦ hplaced) hplaced fun _ hf ↦ hf).bind
        fun _ _ ht ↦ ht
  case h_1 => trivial
  all_goals
    next hc =>
    refine hsame ?_
    rw [Job.segment?, hc]

/-- **Filling in jumps** moves nothing, even if one of them is too far. -/
theorem Placed.resolve (h : s.Placed job cs) :
    s.resolve.Ends (fun _ ↦ Placed job cs) (Placed job cs) fun _ ↦ True := by
  obtain ⟨order, ps, hs, hps, hcs⟩ := h
  have hstream := hps.stream.resolve s.ranges
  rw [Session.resolve]
  split
  · next hdone =>
    rw [hdone] at hstream
    exact ⟨order, ps, hs.of_slots_eq rfl, ⟨hps.supplied, hstream, hps.ranges⟩, hcs⟩
  · next hfailed =>
    rw [hfailed] at hstream
    exact ⟨order, ps, hs.of_slots_eq rfl, ⟨hps.supplied, hstream, hps.ranges⟩, hcs⟩
  · trivial

end Session

end RegisterBytecode
