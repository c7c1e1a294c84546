import RegisterBytecode.Proofs.Pool

/-!
# Compiled bodies tile the stream

The ranges that an image announces for its functions leave no gap and do not overlap: in pool order
each starts where the one before it ends, the first at the start of the stream and the last at its
end. `Tiles` says so of a list of ranges.

The places of segments tile because they are computed that way (`Job.tiles_placesFrom`). What needs
an argument is that the functions of the pool announce just these places, in the same order,
although they stand in the pool among literals (`Session.Finished.map_range_functions`). A walk over
the whole stream then never straddles the end of a body, since the walk over a body comes out
exactly there (`Session.Finished.offsets_append`).
-/

namespace RegisterBytecode

/-! ### Ranges in a row -/

/-- Ranges stand one behind the other and fill the offsets from `start` to `stop`. -/
def Tiles : Nat → List Range → Nat → Prop
  | start, [], stop => start = stop
  | start, r :: rs, stop => r.start = start ∧ r.start ≤ r.stop ∧ Tiles r.stop rs stop

namespace Tiles

variable {start stop : Nat} {rs : List Range} {r r' : Range}

theorem le (h : Tiles start rs stop) : start ≤ stop := by
  induction rs generalizing start with
  | nil => exact Nat.le_of_eq h
  | cons r rs ih =>
    obtain ⟨rfl, hle, hrest⟩ := h
    exact Nat.le_trans hle (ih hrest)

theorem start_le_stop (h : Tiles start rs stop) (hr : r ∈ rs) : r.start ≤ r.stop := by
  induction rs generalizing start with
  | nil => cases hr
  | cons r' rs ih =>
    obtain ⟨-, hle, hrest⟩ := h
    rcases List.mem_cons.1 hr with rfl | hr
    · exact hle
    · exact ih hrest hr

/-- A range that is first starts where the row starts. -/
theorem start_eq (h : Tiles start rs stop) (hr : rs.head? = some r) : r.start = start := by
  cases rs with
  | nil => cases hr
  | cons r' rs =>
    obtain rfl := Option.some.inj hr
    exact h.1

/-- Each range starts where the one before it ends. -/
theorem start_eq_stop (h : Tiles start rs stop) {k : Nat} (hr : rs[k]? = some r)
    (hr' : rs[k + 1]? = some r') : r'.start = r.stop := by
  induction rs generalizing start k with
  | nil => cases hr
  | cons r₀ rs ih =>
    obtain ⟨-, -, hrest⟩ := h
    cases k with
    | zero =>
      obtain rfl := Option.some.inj hr
      exact hrest.start_eq (by rwa [List.head?_eq_getElem?])
    | succ k => exact ih hrest hr hr'

/-- A range that is last ends where the row ends. -/
theorem stop_eq (h : Tiles start rs stop) (hr : rs.getLast? = some r) : r.stop = stop := by
  induction rs generalizing start with
  | nil => cases hr
  | cons r₀ rs ih =>
    obtain ⟨-, -, hrest⟩ := h
    cases rs with
    | nil =>
      obtain rfl := Option.some.inj hr
      exact hrest
    | cons r₁ rs => exact ih hrest (by rwa [List.getLast?_cons_cons] at hr)

end Tiles

/-- **A walk over tiles** is the walk over each of them, if each comes out at the end of its
tile. -/
theorem Image.offsets_of_tiles {m : Image} {start stop : Nat} {rs : List Range}
    (h : Tiles start rs stop)
    (hwalk : ∀ r ∈ rs, ∀ stop, r.stop ≤ stop →
      m.offsets r.start stop = m.offsets r.start r.stop ++ m.offsets r.stop stop) :
    m.offsets start stop = rs.flatMap fun r ↦ m.offsets r.start r.stop := by
  induction rs generalizing start with
  | nil =>
    obtain rfl : start = stop := h
    exact m.offsets_self start
  | cons r rs ih =>
    obtain ⟨rfl, -, hrest⟩ := h
    rw [hwalk r List.mem_cons_self stop hrest.le, List.flatMap_cons,
      ih hrest fun r' hr' ↦ hwalk r' (List.mem_cons_of_mem _ hr')]

/-! ### The places of segments -/

namespace Job

variable {job : Job} {order : List ConstIndex} {gs : List Segment} {g : Segment} {offset : Nat}

/-- The places of segments, the first of which starts at `offset`. -/
def placesFrom (job : Job) (order : List ConstIndex) : Nat → List Segment → List Range
  | _, [] => []
  | offset, g :: gs =>
    ⟨offset, offset + Op.total (job.segmentOps order g)⟩
      :: job.placesFrom order (offset + Op.total (job.segmentOps order g)) gs

/-- **Places of segments tile**, since each is computed from the end of the one before. -/
theorem tiles_placesFrom :
    Tiles offset (job.placesFrom order offset gs)
      (offset + Op.total (gs.flatMap (job.segmentOps order))) := by
  induction gs generalizing offset with
  | nil => rfl
  | cons g gs ih =>
    rw [List.flatMap_cons, Op.total_append, ← Nat.add_assoc]
    exact ⟨rfl, Nat.le_add_right _ _, ih⟩

theorem placesFrom_concat :
    job.placesFrom order offset (gs ++ [g]) = job.placesFrom order offset gs ++
      [⟨offset + Op.total (gs.flatMap (job.segmentOps order)),
        offset + Op.total (gs.flatMap (job.segmentOps order)) +
          Op.total (job.segmentOps order g)⟩] := by
  induction gs generalizing offset with
  | nil => rfl
  | cons g' gs ih =>
    rw [List.cons_append, placesFrom, ih, placesFrom, List.flatMap_cons, Op.total_append,
      Nat.add_assoc offset, List.cons_append]

/-- What is announced of a segment behind others is the next place. -/
theorem placesFrom_concat_eq :
    job.placesFrom order 0 (gs ++ [g]) =
      job.placesFrom order 0 gs ++ [(job.functionOf order gs g).range] := by
  rw [placesFrom_concat, functionOf, place, start, List.take_length, Nat.zero_add]

/-- An entry is a function exactly if its constant has a segment. -/
theorem function?_of_entryOf? {c : ConstIndex} {e : Entry}
    (h : job.entryOf? order gs c = some e) :
    e.function? = (job.segment? c).map (job.functionOf order gs) := by
  cases hseg : job.segment? c with
  | some g =>
    rw [entryOf?_eq_function_iff.2 ⟨g, hseg, rfl⟩] at h
    obtain rfl := Option.some.inj h
    rfl
  | none =>
    cases e with
    | function f =>
      obtain ⟨g, hg, -⟩ := entryOf?_eq_function_iff.1 h
      rw [hg] at hseg
      cases hseg
    | _ => rfl

end Job

namespace Session.Finished

variable {job : Job} {order : List ConstIndex} {s : Session} {m : Image}

/-- **The functions among the first entries** announce the places of the segments of the first
constants. -/
theorem map_range_functions_take (h : Finished job order s m) {k : Nat} (hk : k ≤ order.length) :
    ((m.pool.toList.take k).filterMap Entry.function?).map Function.range =
      job.placesFrom order 0 (job.segments (order.take k)) := by
  induction k with
  | zero => rfl
  | succ k ih =>
    have hlt : k < m.pool.toList.length := by
      rw [Array.length_toList, h.size_pool]
      exact hk
    have hentry : job.entryOf? order (job.segments (order.take k)) order[k] =
        some m.pool.toList[k] := by
      rw [← h.built.pool k _ (List.getElem?_eq_getElem hk), ← h.pool, ← Array.getElem?_toList]
      exact List.getElem?_eq_getElem hlt
    rw [List.take_succ_eq_append_getElem hlt, List.filterMap_append, List.map_append,
      ih (Nat.le_of_succ_le hk), List.take_succ_eq_append_getElem hk, Job.segments_concat]
    have hfun := Job.function?_of_entryOf? hentry
    -- the entry is a function exactly if its constant has a segment
    cases hseg : job.segment? order[k] with
    | none =>
      rw [hseg] at hfun
      rw [List.filterMap_cons_none hfun]
      simp
    | some g =>
      rw [hseg] at hfun
      rw [List.filterMap_cons_some hfun, Option.toList_some, Job.placesFrom_concat_eq]
      rfl

/-- **The functions of an image announce the places of all segments**, in order. -/
theorem map_range_functions (h : Finished job order s m) :
    m.functions.map Function.range = job.placesFrom order 0 (job.segments order) := by
  have hall := h.map_range_functions_take (Nat.le_refl order.length)
  rw [List.take_length, List.take_of_length_le] at hall
  · exact hall
  · rw [Array.length_toList, h.size_pool]

/-- The stream ends behind the last segment. -/
theorem size_eq (h : Finished job order s m) :
    m.size = Op.total ((job.segments order).flatMap (job.segmentOps order)) := by
  rw [Image.size, ← Array.length_toList, h.code, Chunk.length_render, Job.total_chunks, Job.start,
    List.take_length]

/-- **The ranges of functions tile the stream.** -/
theorem tiles (h : Finished job order s m) : Tiles 0 (m.functions.map Function.range) m.size := by
  have htiles := @Job.tiles_placesFrom job order (job.segments order) 0
  rwa [← h.map_range_functions, Nat.zero_add, ← h.size_eq] at htiles

/-- **The walk over a function comes out at its end**, and goes on from there. -/
theorem offsets_append (h : Finished job order s m) {f : Function} (hf : f ∈ m.functions)
    {stop : Nat} (hstop : f.range.stop ≤ stop) :
    m.offsets f.range.start stop =
      m.offsets f.range.start f.range.stop ++ m.offsets f.range.stop stop := by
  obtain ⟨e, he, hfun⟩ := List.mem_filterMap.1 hf
  obtain ⟨k, hk⟩ := List.mem_iff_getElem?.1 he
  cases e with
  | function f' =>
    obtain rfl := Option.some.inj hfun
    rw [Array.getElem?_toList] at hk
    obtain ⟨-, g, n, -, -, hn, hrange⟩ := h.exists_segment hk
    rw [hrange] at hstop ⊢
    rw [h.offsets_segment hn]
    exact Image.offsets_append_of_has (h.has_segment hn)
      (fun _ hop ↦ Job.fits_of_mem_segmentOps hop) hstop
  | _ => cases hfun

end Session.Finished

/-! ### The main theorem -/

/-- **Functions tile the stream.** The ranges of the functions of an image, in pool order, do not
run backwards, start at zero, follow each other without gap or overlap, and end with the stream; and
a walk over the whole stream is the walks over the functions, one after another. -/
theorem Image.functions_tile_of_compile {program : Program} {config : Config} {image : Image}
    (h : compile program config = .ok image) :
    (∀ f ∈ image.functions, f.range.start ≤ f.range.stop) ∧
      (∃ f, image.functions.head? = some f ∧ f.range.start = 0) ∧
      (∀ (k : Nat) (f g : Function), image.functions[k]? = some f →
        image.functions[k + 1]? = some g → g.range.start = f.range.stop) ∧
      (∃ f, image.functions.getLast? = some f ∧ f.range.stop = image.size) ∧
      image.offsets 0 image.size =
        image.functions.flatMap fun f ↦ image.offsets f.range.start f.range.stop := by
  obtain ⟨order, s, hfin⟩ := compile_eq_ok h
  obtain ⟨main, hmain⟩ := exists_entry_of_compile h
  have htiles := hfin.tiles
  have hne : image.functions ≠ [] := by
    obtain ⟨f, hf, -⟩ := hfin.exists_first hmain
    rw [← Array.getElem?_toList] at hf
    exact List.ne_nil_of_mem (List.mem_filterMap.2 ⟨_, List.mem_of_getElem? hf, rfl⟩)
  refine ⟨fun f hf ↦ htiles.start_le_stop (List.mem_map_of_mem hf), ?_,
    fun k f g hf hg ↦ ?_, ?_, ?_⟩
  · refine ⟨image.functions.head hne, List.head?_eq_some_head hne, htiles.start_eq ?_⟩
    rw [List.head?_map, List.head?_eq_some_head hne, Option.map_some]
  · refine htiles.start_eq_stop (k := k) ?_ ?_
    · rw [List.getElem?_map, hf, Option.map_some]
    · rw [List.getElem?_map, hg, Option.map_some]
  · refine ⟨image.functions.getLast hne, List.getLast?_eq_some_getLast hne, htiles.stop_eq ?_⟩
    rw [List.getLast?_map, List.getLast?_eq_some_getLast hne, Option.map_some]
  · rw [Image.offsets_of_tiles htiles, List.flatMap_map]
    intro r hr stop hstop
    obtain ⟨f, hf, rfl⟩ := List.mem_map.1 hr
    exact hfin.offsets_append hf hstop

/-- The two bodies of the pair stand in the pool on both sides of a float. -/
theorem Image.functions_tile_pair :
    ∃ image f g, compile Program.pair {} = .ok image ∧ image.functions = [f, g] ∧
      f.range.start = 0 ∧ f.range.start ≤ f.range.stop ∧ g.range.start = f.range.stop ∧
      g.range.start ≤ g.range.stop ∧ g.range.stop = image.size ∧
      image.offsets 0 image.size =
        image.offsets f.range.start f.range.stop ++ image.offsets g.range.start g.range.stop := by
  have heval : (compile Program.pair {}).map (·.functions.length) = .ok 2 := by decide +kernel
  obtain ⟨image, himage, hlen⟩ := exists_of_map_eq_ok heval
  obtain ⟨f, g, hfg⟩ := List.length_eq_two.1 hlen
  obtain ⟨hle, ⟨first, hfirst, hstart⟩, hnext, ⟨last, hlast, hstop⟩, hwalk⟩ :=
    functions_tile_of_compile himage
  rw [hfg] at hle hfirst hnext hlast hwalk
  obtain rfl : f = first := Option.some.inj hfirst
  obtain rfl : g = last := Option.some.inj hlast
  refine ⟨image, f, g, himage, hfg, hstart, hle f (by simp), hnext 0 f g rfl rfl, hle g (by simp),
    hstop, ?_⟩
  rw [hwalk]
  simp

end RegisterBytecode
