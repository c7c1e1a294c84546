import RegisterBytecode.Proofs.Code.KnownLines
import RegisterBytecode.Proofs.Session.Halting
import RegisterBytecode.Proofs.SourceLines

/-!
# The line of an error

A compilation that exceeds a capacity reports the last known line of what it has emitted. What that
is can be said without a compiler. Bodies are emitted in the breadth-first order of the program,
each instruction with its line and a padding with that of the last instruction, up to the first body
for which there is no storage or the first instruction for whose constant there is no slot
(`Program.Halts`). There is only one such place (`Program.Halts.unique`). The instruction that is
refused does not count, though its line was the current one by then; nor does anything else that
emits nothing.

The main theorem has two parts that meet in the state in which a run is left. The session has
compiled the first constants of the breadth-first order (`Session.Built.done_eq`), so it halts where
the program says (`Session.HaltedAt.halts`). And its stream holds what was emitted until then, with
a line table that has the same last known line (`Job.Laid.shows_lay`).
-/

namespace RegisterBytecode

/-! ### What has been emitted when a compilation halts -/

/-- What a job emits for the first `n` constants of an order, each operation with its line. -/
def Job.emittedBefore (job : Job) (order : List ConstIndex) (n : Nat) : List (Op Operand × Nat) :=
  (job.segments (order.take n)).flatMap (job.segmentLined order)

namespace Program

variable (p : Program) (config : Config)

/-- The constants that are listed when the first `n` in breadth-first order have been dealt with,
and the first `k` instructions of a body behind them. -/
def listed (n : Nat) (body : Body) (k : Nat) : List ConstIndex :=
  ((body.code.toList.take k).filterMap (Instr.poolRef? p config)).foldl reserve
    (explored (p.refs config) p.entry (p.breadthFirst config) n)

/-- Nothing prevents the first `n` constants in breadth-first order from being compiled: there is
storage for every body, and a slot for all that is listed. -/
structure Passes (n : Nat) : Prop where
  storage : ∀ c ∈ (p.breadthFirst config).take n, ∀ body, p.get? c = some (.code body) →
    ∃ frame, Frame.allocate body = .ok frame
  room : (explored (p.refs config) p.entry (p.breadthFirst config) n).length ≤
    min config.maxConstants poolLimit

/-- The constant at position `n` in breadth-first order exceeds a capacity after it has emitted
certain operations, each with its line. -/
inductive StopsAt (n : Nat) : ErrorKind → List (Op Operand × Nat) → Prop
  /-- It is a body for which there is no storage. -/
  | storage {c : ConstIndex} {body : Body} {kind : ErrorKind}
      (hc : (p.breadthFirst config)[n]? = some c) (hbody : p.get? c = some (.code body))
      (hstorage : Frame.allocate body = .error (.error ⟨kind, none⟩)) : StopsAt n kind []
  /-- It is a body whose instruction at position `k` refers to a constant that is not listed yet,
  when all slots are taken. -/
  | slot {c d : ConstIndex} {body : Body} {frame : Frame} {k : Nat} {i : Instr}
      (hc : (p.breadthFirst config)[n]? = some c) (hbody : p.get? c = some (.code body))
      (hframe : Frame.allocate body = .ok frame) (hi : body.code[k]? = some i)
      (hd : i.poolRef? p config = some d) (hnew : d ∉ p.listed config n body k)
      (hfull : (p.listed config n body k).length = min config.maxConstants poolLimit) :
    StopsAt n (.constants (min config.maxConstants poolLimit))
      (Stream.linedOps ((Job.new p config).ops (slotOf (p.breadthFirst config)) frame.home)
        (body.lined.take k))

/-- A compilation exceeds a capacity after it has emitted certain operations, each with its line. -/
inductive Halts : ErrorKind → List (Op Operand × Nat) → Prop
  /-- There is not even a slot for the entry. -/
  | entry (hmax : config.maxConstants = 0) : Halts (.constants 0) []
  /-- All constants before one are compiled, and that one is not. -/
  | constant {n : Nat} {kind : ErrorKind} {last : List (Op Operand × Nat)}
      (hpasses : p.Passes config n) (hstops : p.StopsAt config n kind last) :
    Halts kind ((Job.new p config).emittedBefore (p.breadthFirst config) n ++ last)

end Program

namespace Program

variable {p : Program} {config : Config} {n k : Nat} {c d : ConstIndex} {body : Body}
  {kind kind' : ErrorKind} {xs ys : List (Op Operand × Nat)}

/-- Dealing with more instructions lists more constants, behind those that are listed. -/
theorem listed_prefix_listed (p : Program) (config : Config) (n : Nat) (body : Body) {j : Nat}
    (h : j ≤ k) : p.listed config n body j <+: p.listed config n body k := by
  have htake : body.code.toList.take k =
      body.code.toList.take j ++ (body.code.toList.take k).drop j := by
    conv_lhs => rw [← List.take_append_drop j (body.code.toList.take k), List.take_take,
      Nat.min_eq_left h]
  rw [listed, listed, htake, List.filterMap_append, List.foldl_append]
  exact prefix_foldl_reserve _ _

/-- What is listed in the middle of a body will be listed when all of it has been dealt with. -/
theorem listed_prefix_explored (hc : (p.breadthFirst config)[n]? = some c)
    (hbody : p.get? c = some (.code body)) (k : Nat) :
    p.listed config n body k <+:
      explored (p.refs config) p.entry (p.breadthFirst config) (n + 1) := by
  have hrefs : p.refs config c =
      (body.code.toList.take k).filterMap (Instr.poolRef? p config) ++
        (body.code.toList.drop k).filterMap (Instr.poolRef? p config) := by
    rw [← List.filterMap_append, List.take_append_drop, refs, hbody, Option.toList_some,
      List.flatMap_singleton]
    rfl
  rw [explored, List.take_add_one, hc, Option.toList_some, List.flatMap_append,
    List.flatMap_singleton, List.foldl_append, hrefs, List.foldl_append]
  exact prefix_foldl_reserve _ _

/-- A reference to a constant that is not listed adds it. -/
theorem length_listed_succ {i : Instr} (hi : body.code[k]? = some i)
    (hd : i.poolRef? p config = some d) (hnew : d ∉ p.listed config n body k) :
    (p.listed config n body (k + 1)).length = (p.listed config n body k).length + 1 := by
  have hstep : p.listed config n body (k + 1) = reserve (p.listed config n body k) d := by
    rw [listed, List.take_add_one, Array.getElem?_toList, hi, Option.toList_some,
      List.filterMap_append, List.filterMap_cons_some hd, List.foldl_append]
    rfl
  rw [hstep, reserve, if_neg hnew, List.length_append, List.length_singleton]

/-- If as many constants are listed at two places, then none is added at the earlier one. -/
theorem not_lt_of_full {i : Instr} (hi : body.code[k]? = some i)
    (hd : i.poolRef? p config = some d) (hnew : d ∉ p.listed config n body k) {k' : Nat}
    (hfull : (p.listed config n body k).length = (p.listed config n body k').length) :
    ¬k < k' := by
  intro hlt
  have hle := (listed_prefix_listed p config n body hlt).length_le
  rw [length_listed_succ hi hd hnew] at hle
  omega

/-- **Nothing behind a constant that exceeds a capacity** is reached. -/
theorem StopsAt.not_passes (h : p.StopsAt config n kind xs) {m : Nat} (hm : n < m) :
    ¬p.Passes config m := by
  intro hpasses
  cases h with
  | storage hc hbody hstorage =>
    have hmem : ((p.breadthFirst config).take m)[n]? = some _ :=
      (List.getElem?_take_of_lt hm).trans hc
    obtain ⟨frame, hframe⟩ := hpasses.storage _ (List.mem_of_getElem? hmem) _ hbody
    rw [hstorage] at hframe
    cases hframe
  | @slot _ _ _ _ k _ hc hbody hframe hi hd hnew hfull =>
    have hlisted := (listed_prefix_explored hc hbody (k + 1)).length_le
    have hmore := (explored_prefix_explored (p.refs config) p.entry (p.breadthFirst config)
      (Nat.succ_le_of_lt hm)).length_le
    have hroom := hpasses.room
    rw [length_listed_succ hi hd hnew, hfull] at hlisted
    exact absurd (Nat.le_trans hlisted (Nat.le_trans hmore hroom)) (Nat.not_succ_le_self _)

/-- A constant exceeds a capacity in one way only. -/
theorem StopsAt.unique (h : p.StopsAt config n kind xs) (h' : p.StopsAt config n kind' ys) :
    kind = kind' ∧ xs = ys := by
  have hsame : ∀ {c c' body body'}, (p.breadthFirst config)[n]? = some c →
      (p.breadthFirst config)[n]? = some c' → p.get? c = some (.code body) →
      p.get? c' = some (.code body') → body = body' := by
    intro c c' body body' hc hc' hbody hbody'
    obtain rfl := Option.some.inj (hc.symm.trans hc')
    exact Constant.code.inj (Option.some.inj (hbody.symm.trans hbody'))
  cases h with
  | storage hc hbody hstorage =>
    cases h' with
    | storage hc' hbody' hstorage' =>
      obtain rfl := hsame hc hc' hbody hbody'
      rw [hstorage] at hstorage'
      cases hstorage'
      exact ⟨rfl, rfl⟩
    | slot hc' hbody' hframe =>
      obtain rfl := hsame hc hc' hbody hbody'
      rw [hstorage] at hframe
      cases hframe
  | @slot _ _ _ _ k _ hc hbody hframe hi hd hnew hfull =>
    cases h' with
    | storage hc' hbody' hstorage =>
      obtain rfl := hsame hc hc' hbody hbody'
      rw [hframe] at hstorage
      cases hstorage
    | @slot _ _ _ _ k' _ hc' hbody' hframe' hi' hd' hnew' hfull' =>
      obtain rfl := hsame hc hc' hbody hbody'
      obtain rfl := Except.ok.inj (hframe.symm.trans hframe')
      -- whichever refers to an unlisted constant first would list one too many for the other
      have hge := not_lt_of_full hi hd hnew (hfull.trans hfull'.symm)
      have hle := not_lt_of_full hi' hd' hnew' (hfull'.trans hfull.symm)
      obtain rfl : k = k' := by omega
      exact ⟨rfl, rfl⟩

/-- **A compilation halts at one place only.** -/
theorem Halts.unique (h : p.Halts config kind xs) (h' : p.Halts config kind' ys) :
    kind = kind' ∧ xs = ys := by
  have hentry : config.maxConstants = 0 → ∀ n, ¬p.Passes config n := by
    intro hmax n hpasses
    have hroom := hpasses.room
    have hmem : p.entry ∈ explored (p.refs config) p.entry (p.breadthFirst config) n :=
      mem_foldl_reserve.2 (Or.inl (List.mem_singleton_self _))
    have hpos := List.length_pos_of_mem hmem
    omega
  cases h with
  | entry hmax =>
    cases h' with
    | entry => exact ⟨rfl, rfl⟩
    | constant hpasses => exact absurd hpasses (hentry hmax _)
  | @constant n _ _ hpasses hstops =>
    cases h' with
    | entry hmax => exact absurd hpasses (hentry hmax _)
    | @constant m _ _ hpasses' hstops' =>
      have hge : ¬n < m := fun hlt ↦ hstops.not_passes hlt hpasses'
      have hle : ¬m < n := fun hlt ↦ hstops'.not_passes hlt hpasses
      obtain rfl : n = m := by omega
      obtain ⟨rfl, rfl⟩ := hstops.unique hstops'
      exact ⟨rfl, rfl⟩

end Program

/-- Storage that cannot be chosen has no line yet. -/
theorem Frame.line_of_allocate {body : Body} {e : CompileError}
    (h : Frame.allocate body = .error (.error e)) : e.line = none := by
  have hend := ending_allocate body
  rw [h] at hend
  cases hend with
  | cells | upvalues | registers => rfl

/-! ### Streams -/

namespace Op

/-- An operation whose distance is blank. -/
theorem render_blank_chunks (pos body : Nat) (op : Op Operand) :
    Chunk.render Chunk.blank pos (op.chunks body) = op.bytes (-1) := by
  rw [render_chunks]
  cases hi : op.immediate with
  | target l => rw [distance, hi]; rfl
  | _ => rw [bytes, bytes, hi]; rfl

theorem render_blank_flatMap_chunks (pos body : Nat) (ops : List (Op Operand)) :
    Chunk.render Chunk.blank pos (ops.flatMap (chunks body)) = ops.flatMap (bytes (-1)) := by
  induction ops generalizing pos with
  | nil => rfl
  | cons op ops ih =>
    rw [List.flatMap_cons, Chunk.render_append, render_blank_chunks, ih, List.flatMap_cons]

end Op

theorem Job.render_blank_chunks (job : Job) (order : List ConstIndex) (gs : List Segment) :
    Chunk.render Chunk.blank 0 (job.chunks order gs) =
      (gs.flatMap (job.segmentOps order)).flatMap (Op.bytes (-1)) := by
  induction gs using List.reverseRecOn with
  | nil => rfl
  | append_singleton gs g ih =>
    rw [chunks_concat, Chunk.render_append, ih, Op.render_blank_flatMap_chunks, List.flatMap_append,
      List.flatMap_append, List.flatMap_singleton]

/-- A stream holds operations whose distances are blank, and its last known line is that of their
lines. -/
structure Stream.Shows (xs : List (Op Operand × Nat)) (s : Stream) : Prop where
  code : s.code.toList = (xs.map Prod.fst).flatMap (Op.bytes (-1))
  lastLine : s.lastLine? = lastKnown? (xs.map Prod.snd)

/-- **Segments and instructions behind them** are what a stream shows that holds them. -/
theorem Job.Laid.shows_lay {job : Job} {order : List ConstIndex} {gs : List Segment} {st : Stream}
    {ranges : Array Range} (h : job.Laid order gs st ranges) (hrec : job.config.recordLines = true)
    (home : Reg → Operand) (n : Nat) (code : List (Instr × Nat)) :
    (st.lay (job.ops (slotOf order) home) n code).Shows
      (gs.flatMap (job.segmentLined order) ++
        Stream.linedOps (job.ops (slotOf order) home) code) := by
  have hops : ∀ i, job.ops (slotOf order) home i = [] ↔ i.silent = true := fun i ↦ ops_eq_nil_iff
  constructor
  · rw [(h.lays.lay hops).code, Chunk.render_append, job.render_blank_chunks,
      Op.render_blank_flatMap_chunks, List.map_append, List.flatMap_append,
      job.map_fst_flatMap_segmentLined, Stream.map_fst_linedOps]
  · have hst : st.Traces (Op.marks 0 (gs.flatMap (job.segmentLined order))) := by
      rw [h.stream]
      exact Job.traces_stream hrec
    have htraces : (st.lay (job.ops (slotOf order) home) n code).Traces _ := hst.lay hops
    rw [h.stream, Job.size_stream, ← Job.map_fst_flatMap_segmentLined, ← Nat.zero_add (Op.total _),
      ← Op.marks_append, ← h.stream] at htraces
    rw [Stream.lastLine?, htraces.compresses.lastLine?_eq (Op.pairwise_marks _ _),
      Op.map_line_marks]

theorem Job.Laid.shows {job : Job} {order : List ConstIndex} {gs : List Segment} {st : Stream}
    {ranges : Array Range} (h : job.Laid order gs st ranges)
    (hrec : job.config.recordLines = true) : st.Shows (gs.flatMap (job.segmentLined order)) := by
  have hshows := h.shows_lay hrec (fun _ ↦ .register 0) 0 []
  rwa [Stream.linedOps, List.flatMap_nil, List.append_nil] at hshows

/-! ### Sessions -/

namespace Session

variable {p : Program} {config : Config} {order done batch : List ConstIndex} {s t : Session}
  {c d : ConstIndex} {e : CompileError}

/-- A constant that has been compiled asks for what the program says it refers to. -/
theorem Built.wantsOf_eq_refs (h : s.Built (Job.new p config) order done batch) (hd : d ∈ done) :
    (Job.new p config).wantsOf d = p.refs config d := by
  refine Job.wantsOf_eq_refs fun body hbody i hi ↦ ?_
  obtain ⟨frame, -, hsound⟩ := h.exists_sound hd hbody
  obtain ⟨e, he, -⟩ := hsound.supplied i hi
  exact ⟨e, he⟩

/-- **The constants that have been compiled** are the first ones in breadth-first order, and those
asked for are what is listed by then. -/
theorem Built.done_eq (h : s.Built (Job.new p config) order done batch) :
    done = (p.breadthFirst config).take done.length ∧
      order = explored (p.refs config) p.entry (p.breadthFirst config) done.length := by
  have hasked : order = (done.flatMap (p.refs config)).foldl reserve [p.entry] := by
    rw [← List.flatMap_congr fun d hd ↦ h.wantsOf_eq_refs hd]
    exact h.asked
  have hprefix : done <+: (done.flatMap (p.refs config)).foldl reserve [p.entry] := by
    rw [← hasked, h.queue]
    exact List.prefix_append _ _
  have hdone : done <+: p.breadthFirst config := by
    refine (p.breadthFirst_breadthFirst config).isPrefix_of_isPrefix hprefix fun d hd ↦ ?_
    have hreached := h.reached d (hasked ▸ hprefix.subset hd)
    exact Relation.ReflTransGen.mono (fun a _ hab ↦ Job.wantsOf_subset_refs a hab) _ _ hreached
  have htake := List.prefix_iff_eq_take.1 hdone
  refine ⟨htake, ?_⟩
  rw [explored, ← htake]
  exact hasked

/-- The constants that have been asked for are the first ones in breadth-first order. -/
theorem Built.order_isPrefix (h : s.Built (Job.new p config) order done batch) :
    order <+: p.breadthFirst config := by
  rw [h.done_eq.2]
  exact BreadthFirst.explored_prefix (p.breadthFirst_breadthFirst config) done.length

/-- The next constant to be compiled is the next one in breadth-first order. -/
theorem Built.getElem?_next (h : s.Built (Job.new p config) order done (c :: batch)) :
    (p.breadthFirst config)[done.length]? = some c := by
  obtain ⟨rest, hrest⟩ := h.order_isPrefix
  rw [← hrest, h.queue]
  simp

/-- Nothing prevented the constants that have been compiled from being so. -/
theorem Built.passes (h : s.Built (Job.new p config) order done batch) :
    p.Passes config done.length where
  storage d hd body hbody := by
    rw [← h.done_eq.1] at hd
    obtain ⟨frame, hframe, -⟩ := h.exists_sound hd hbody
    exact ⟨frame, hframe⟩
  room := by
    rw [← h.done_eq.2]
    exact h.reserved.limit

/-- The instructions of the next body that have been emitted list what they refer to. -/
theorem Built.listed_eq (h : s.Built (Job.new p config) order done batch) {body : Body} {k : Nat}
    {home : Reg → Operand} {ordinal : Nat} {s' : Session} {fresh : List ConstIndex}
    (he : Emits (Job.new p config) home ordinal order (body.lined.take k) s' fresh t) :
    p.listed config done.length body k = order ++ fresh := by
  have hcode : (body.lined.take k).map Prod.fst = body.code.toList.take k := by
    rw [List.map_take, body.map_fst_lined]
  have hrefs : (body.code.toList.take k).flatMap (Job.new p config).wants =
      (body.code.toList.take k).filterMap (Instr.poolRef? p config) := by
    rw [List.filterMap_eq_flatMap_toList]
    refine List.flatMap_congr fun i hi ↦ ?_
    rw [← hcode] at hi
    obtain ⟨x, hx, rfl⟩ := List.mem_map.1 hi
    obtain ⟨d, hd, -⟩ := he.supplied x hx
    exact Job.wants_eq_poolRef? hd
  rw [Program.listed, ← h.done_eq.2, ← he.asked, hcode, hrefs]

/-- Without a slot for the entry nothing is emitted. -/
theorem Refused.halts (h : Refused (Job.new p config) [] p.entry e) :
    p.Halts config e.kind [] := by
  have hmax : 0 = min config.maxConstants poolLimit := h.full
  have hzero : config.maxConstants = 0 := by
    have hpos : 0 < poolLimit := by decide
    omega
  rw [h.error]
  show p.Halts config (.constants (min config.maxConstants poolLimit)) []
  rw [← hmax]
  exact .entry hzero

/-- **A session halts where the program says**, and its stream holds what was emitted until then. -/
theorem HaltedAt.halts (h : HaltedAt (Job.new p config) e t) (hrec : config.recordLines = true) :
    ∃ emitted, p.Halts config e.kind emitted ∧ e.line = none ∧ t.stream.Shows emitted := by
  obtain ⟨order, done, c, batch, s, hs, hc⟩ := h
  have hnext := hs.getElem?_next
  have hbefore : (Job.new p config).emittedBefore (p.breadthFirst config) done.length =
      ((Job.new p config).segments done).flatMap
        ((Job.new p config).segmentLined (p.breadthFirst config)) := by
    rw [Job.emittedBefore, ← hs.done_eq.1]
  have hlaid : (Job.new p config).Laid (p.breadthFirst config) ((Job.new p config).segments done)
      s.stream s.ranges := by
    obtain ⟨rest, hrest⟩ := hs.order_isPrefix
    rw [← hrest]
    exact hs.laid.append_order
  obtain ⟨body, hbody, ⟨halloc, rfl⟩ | ⟨frame, hframe, hemit⟩⟩ := compileConstant_eq_failed hc
  · have hline := Frame.line_of_allocate halloc
    have hstops : p.StopsAt config done.length e.kind [] :=
      .storage hnext hbody (by rw [halloc, ← hline])
    refine ⟨_, .constant hs.passes hstops, hline, ?_⟩
    rw [hbefore, List.append_nil]
    exact hlaid.shows hrec
  · have hopen : Reserved (Job.new p config)
        { s with ranges := s.ranges.push ⟨s.stream.code.size, s.stream.code.size⟩ } order :=
      hs.reserved.of_slots_eq rfl
    obtain ⟨k, i, line, fresh, s', d, hk, hemits, hdemand, hrefused, rfl⟩ :=
      hopen.refused_of_emitAll (fun _ hx _ ↦ Frame.operand_home_of_mem_lined hframe hx) hemit
    have hlisted := hs.listed_eq hemits
    rw [body.getElem?_lined] at hk
    obtain ⟨i, hi, hpair⟩ := Option.map_eq_some_iff.1 hk
    obtain ⟨rfl, -⟩ := Prod.mk.inj hpair
    have hd := (Job.eq_poolRef?_of_demand hdemand).symm
    obtain ⟨hnew, hfull, rfl⟩ := hrefused
    have hstops := Program.StopsAt.slot hnext hbody hframe hi hd (hlisted ▸ hnew)
      (hlisted ▸ hfull)
    refine ⟨_, .constant hs.passes hstops, rfl, ?_⟩
    -- the slots that were known by then are those of the whole order
    obtain ⟨rest, hrest⟩ := (Program.listed_prefix_explored hnext hbody k).trans
      (BreadthFirst.explored_prefix (p.breadthFirst_breadthFirst config) _)
    have hlay : s'.stream = s.stream.lay
        ((Job.new p config).ops (slotOf (p.breadthFirst config)) frame.home) s.ranges.size
        (body.lined.take k) := by
      rw [hemits.stream, ← hrest, hlisted]
      exact Stream.lay_congr fun x hx ↦ ((hemits.supplied x hx).ops_append frame.home rest).symm
    have hshows := hlaid.shows_lay hrec frame.home s.ranges.size (body.lined.take k)
    rw [← hlay, ← hbefore] at hshows
    exact ⟨hshows.code, hshows.lastLine⟩

end Session

/-! ### The main theorem -/

/-- **The line of an error** is the last known line of what has been emitted. If a compilation that
records lines exceeds a capacity, its run has been left in a state whose stream holds certain
operations and nothing else. These are what is emitted until the compilation halts, which it does at
one place only, and the error has the line of the last of them whose line is known, or no line if
there is none. -/
theorem line_of_compile_eq_error {program : Program} {config : Config} {e : CompileError}
    (hrec : config.recordLines = true) (h : compile program config = .error (.error e))
    (hkind : e.kind.isCapacity = true) :
    ∃ s emitted, (Session.start (Job.new program config)).run (Job.new program config) =
        .failed ⟨e.kind, none⟩ s ∧
      s.stream.code.toList = (emitted.map Prod.fst).flatMap (Op.bytes (-1)) ∧
      program.Halts config e.kind emitted ∧
      (∀ kind emitted', program.Halts config kind emitted' → kind = e.kind ∧ emitted' = emitted) ∧
      e.line = lastKnown? (emitted.map Prod.snd) := by
  rw [compile] at h
  split at h
  · cases h
  · next e' s hrun =>
    obtain rfl := Stop.error.inj (Except.error.inj h)
    have hhalts : ∃ emitted, program.Halts config e'.kind emitted ∧ e'.line = none ∧
        s.stream.Shows emitted := by
      -- the entry itself may be refused, before anything is emitted
      rcases Session.run_eq_failed hrun hkind with ⟨hrefused, rfl⟩ | hhalted
      · exact ⟨[], hrefused.halts, hrefused.error ▸ rfl, rfl, rfl⟩
      · exact hhalted.halts hrec
    obtain ⟨emitted, hhalts, hline, hshows⟩ := hhalts
    refine ⟨s, emitted, ?_, hshows.code, hhalts, fun _ _ h' ↦ h'.unique hhalts, ?_⟩
    · rw [hrun, CompileError.orLine, ← hline]
    · rw [CompileError.orLine, hline, Option.none_or, ← hshows.lastLine]
      rfl
  · cases h

/-- Two bodies, of which the first ends in a label and the second asks for two constants of its own.
Two instructions have no line. -/
def Program.crowded : Program where
  constants := #[
    .code { name := "outer", code := #[.closure (.loc 0) 1 [], .clear (.loc 0), .label 3],
            lines := #[5, 0, 7] },
    .code { name := "inner", code := #[.load (.loc 0) 2, .label 1, .load (.loc 0) 3],
            lines := #[0, 9, 8] },
    .float 1, .float 2]

/-- With three slots the last load is refused. Neither its line `8` counts nor that of the label
before it; the load before that has no line, so the last known one is that of the padding of the
first body. -/
theorem line_of_crowded :
    ∃ s emitted, compile Program.crowded { maxConstants := 3 } =
        .error (.error ⟨.constants 3, some 7⟩) ∧
      (Session.start (Job.new Program.crowded { maxConstants := 3 })).run
        (Job.new Program.crowded { maxConstants := 3 }) = .failed ⟨.constants 3, none⟩ s ∧
      Program.crowded.Halts { maxConstants := 3 } (.constants 3) emitted ∧
      lastKnown? (emitted.map Prod.snd) = some 7 := by
  have heval : (compile Program.crowded { maxConstants := 3 }).map (fun _ ↦ ()) =
      .error (.error ⟨.constants 3, some 7⟩) := by
    decide +kernel
  have hcompile := eq_error_of_map_eq_error heval
  obtain ⟨s, emitted, hrun, -, hhalts, -, hline⟩ := line_of_compile_eq_error rfl hcompile rfl
  exact ⟨s, emitted, hcompile, hrun, hhalts, hline.symm⟩

end RegisterBytecode
