import Pathwise.Proofs.Segmentation.Repetition
import Pathwise.Resolution.Handler

/-!
# Pathwise.Proofs.Segmentation.Form

The blocks of a form, from those of its graph. The blocks that can be reached are
encoded one after the other, so their segments stand together
(`Lowering.Located`), and `Form.segments_of_ofGraph` finds them in the form.

`Form.laidOut_of_ofGraph` says what blocks a form has and where their edges lead,
and `Form.contents_of_ofGraph` that reading the segments of a block gives what its
instructions become, each once and in order.
-/

namespace Pathwise

open MethodGraph (Instruction)

/-- The edges behind the last instruction of a block. -/
inductive MethodGraph.Block.LeftBy (b : MethodGraph.Block) : List Edge → Prop where
  | branch {test : BranchTest} {taken other : Nat}
      (hterm : b.terminator?.map Instruction.opcode = some (.branch test))
      (hsucc : b.successors = [taken, other]) :
      LeftBy b [⟨.taken, .node taken⟩, ⟨.notTaken, .node other⟩]
  | ret (hterm : b.terminator?.map Instruction.opcode = some .ret) :
      LeftBy b [⟨.always, .regularExit⟩]
  | throw (hterm : b.terminator?.map Instruction.opcode = some .throw) :
      LeftBy b [⟨.always, .exceptionalExit⟩]
  | jump {next : Nat} (hbranch : ∀ test, b.terminator?.map Instruction.opcode ≠ some (.branch test))
      (hterm : b.terminator?.map Instruction.opcode ∉ [some .ret, some .throw])
      (hsucc : b.successors = [next]) : LeftBy b [⟨.always, .node next⟩]
  | none (hbranch : ∀ test, b.terminator?.map Instruction.opcode ≠ some (.branch test))
      (hterm : b.terminator?.map Instruction.opcode ∉ [some .ret, some .throw])
      (hsucc : b.successors = []) : LeftBy b [⟨.always, .regularExit⟩]

namespace MethodGraph.Block.LeftBy

variable {b : MethodGraph.Block} {edges : List Edge}

/-- A block has an exit. -/
theorem ne_nil (h : b.LeftBy edges) : edges ≠ [] := by
  cases h <;> exact List.cons_ne_nil _ _

/-- Branches have two exits. -/
theorem of_branch (h : b.LeftBy edges) {test : BranchTest}
    (hterm : b.terminator?.map Instruction.opcode = some (.branch test)) :
    ∃ taken other, edges = [⟨.taken, .node taken⟩, ⟨.notTaken, .node other⟩] := by
  cases h with
  | branch => exact ⟨_, _, rfl⟩
  | ret hret => simp [hterm] at hret
  | throw hthrow => simp [hterm] at hthrow
  | jump hbranch => exact absurd hterm (hbranch test)
  | none hbranch => exact absurd hterm (hbranch test)

end MethodGraph.Block.LeftBy

namespace Lowering

variable {c : Lowering} {g : MethodGraph} {cuts : List (Nat × List Nat)}

/-- Exits are as the terminator says. -/
theorem leftBy_of_exits {b : MethodGraph.Block} {edges : List Edge} (h : c.exits b = .ok edges) :
    b.LeftBy edges := by
  unfold exits at h
  split at h
  · next test hterm =>
      split at h
      · next taken other hsucc =>
          obtain rfl := Except.ok.inj h
          exact .branch hterm hsucc
      · contradiction
  · next hterm =>
      obtain rfl := Except.ok.inj h
      exact .ret hterm
  · next hterm =>
      obtain rfl := Except.ok.inj h
      exact .throw hterm
  · next hbranch hret hthrow =>
      have hterm : b.terminator?.map Instruction.opcode ∉ [some .ret, some .throw] := by
        simp only [List.mem_cons, List.not_mem_nil, or_false, not_or]
        exact ⟨hret, hthrow⟩
      split at h
      · next hsucc =>
          obtain rfl := Except.ok.inj h
          exact .none hbranch hterm hsucc
      · next next hsucc =>
          obtain rfl := Except.ok.inj h
          exact .jump hbranch hterm hsucc
      · contradiction

/-! ## the blocks of a graph -/

theorem lowerBlocks_append {front back : List Nat} {written out : List (List Block)}
    (h : c.lowerBlocks g cuts (front ++ back) written = .ok out) :
    ∃ before, c.lowerBlocks g cuts front written = .ok before ∧
      c.lowerBlocks g cuts back before = .ok out := by
  induction front generalizing written with
  | nil => exact ⟨written, rfl, h⟩
  | cons n front ih =>
      obtain ⟨source, segments, hn, hs, h⟩ := lowerBlocks_cons h
      obtain ⟨before, hfront, hback⟩ := ih h
      refine ⟨before, ?_, hback⟩
      rw [lowerBlocks, hn]
      exact bind_eq_ok.2 ⟨segments, hs, hfront⟩

/-- Blocks that are segments of listed ones. -/
def SegmentsOf (order : List Nat) (written : List (List Block)) : Prop :=
  ∀ segments ∈ written, ∀ b ∈ segments, ∃ n ∈ order, b.id.index = .node n

/-- Encoding adds segments of the listed blocks behind what is there. -/
theorem exists_append_of_lowerBlocks (hvalid : g.defect? = none) {order : List Nat}
    {written out : List (List Block)} (h : c.lowerBlocks g cuts order written = .ok out) :
    ∃ new, out = written ++ new ∧ SegmentsOf order new := by
  induction order generalizing written with
  | nil =>
      obtain rfl := Except.ok.inj h
      exact ⟨[], by simp, by simp [SegmentsOf]⟩
  | cons n order ih =>
      obtain ⟨source, segments, hn, hs, h⟩ := lowerBlocks_cons h
      obtain ⟨new, rfl, hnew⟩ := ih h
      refine ⟨segments :: new, by simp, List.forall_mem_cons.2 ⟨fun b hb => ?_, ?_⟩⟩
      · refine ⟨n, List.mem_cons_self, ?_⟩
        rw [index_of_mem_lowerBlock hs hb, Form.index_eq_of_valid hvalid hn]
      · intro others hothers b hb
        obtain ⟨m, hm, hid⟩ := hnew others hothers b hb
        exact ⟨m, List.mem_cons_of_mem n hm, hid⟩

/-- Where the segments of a block stand: behind those of the blocks listed before it, and before
those of the blocks listed after it. -/
structure Located (c : Lowering) (cuts : List (Nat × List Nat)) (front : List Nat) (n : Nat)
    (back : List Nat) (entry : Block) (source : MethodGraph.Block)
    (before : List (List Block)) (segments : List Block) (after : List (List Block)) : Prop where
  lowered : c.lowerBlock (visibleSlots (entry :: before.flatten) (Digraph.chainOf cuts n)) source =
    .ok segments
  before : SegmentsOf front before
  after : SegmentsOf back after

/-- Where the segments of a block are. -/
theorem located_of_lowerBlocks (hvalid : g.defect? = none) {front back : List Nat} {n : Nat}
    {entry : Block} {out : List (List Block)} {source : MethodGraph.Block}
    (hsource : g.blocks[n]? = some source)
    (h : c.lowerBlocks g cuts (front ++ n :: back) [[entry]] = .ok out) :
    ∃ before segments after, out = [entry] :: before ++ segments :: after ∧
      c.Located cuts front n back entry source before segments after := by
  obtain ⟨_, hfront, hback⟩ := lowerBlocks_append h
  obtain ⟨before, rfl, hbefore⟩ := exists_append_of_lowerBlocks hvalid hfront
  obtain ⟨source', segments, hn, hs, hback⟩ := lowerBlocks_cons hback
  obtain rfl := Option.some.inj (hn.symm.trans hsource)
  obtain ⟨after, rfl, hafter⟩ := exists_append_of_lowerBlocks hvalid hback
  exact ⟨before, segments, after, by simp, hs, hbefore, hafter⟩

end Lowering

/-- The order lists a block once. -/
theorem MethodGraph.not_mem_of_order {g : MethodGraph} {front back : List Nat} {n : Nat}
    (h : g.order = front ++ n :: back) : n ∉ front ∧ n ∉ back := by
  have hnodup := g.nodup_order
  rw [h, List.nodup_append, List.nodup_cons] at hnodup
  exact ⟨fun hn => hnodup.2.2 n hn n List.mem_cons_self rfl, hnodup.2.1.1⟩

namespace Form

variable {lookup : SentenceLookup} {g : MethodGraph} {f : Form} {source : MethodGraph.Block}
  {b : Block} {n : Nat}

/-- The segments of a block of the graph. -/
def segments (f : Form) (n : Nat) : List Block := f.blocks.filter (·.id.index = .node n)

/-- The blocks that can be reached are in the form one after the other. -/
theorem located_of_ofGraph (h : Form.ofGraph lookup g = .ok f) {front back : List Nat}
    (horder : g.order = front ++ n :: back) (hsource : g.blocks[n]? = some source) :
    ∃ entry before segments after,
      (Lowering.mk g.method lookup).lowerEntry = .ok (entry, f.parameters) ∧
      (Lowering.mk g.method lookup).lowerBlocks g (g.digraph.cuts 0) g.order [[entry]] =
        .ok ([entry] :: before ++ segments :: after) ∧
      f.blocks = withPredecessors (entry :: before.flatMap Lowering.latest ++
        Lowering.latest segments ++ after.flatMap Lowering.latest ++
        [{ id := .regularExit }, { id := .exceptionalExit }]) ∧
      (Lowering.mk g.method lookup).Located (g.digraph.cuts 0) front n back entry source before
        segments after := by
  obtain ⟨hvalid, entry, parameters, written, hentry, hw, rfl⟩ := ofGraph_eq_ok h
  have hw' := hw
  rw [horder] at hw'
  obtain ⟨before, segments, after, rfl, hlocated⟩ :=
    Lowering.located_of_lowerBlocks hvalid hsource hw'
  exact ⟨entry, before, segments, after, hentry, hw, by simp, hlocated⟩

/-! ## blocks chosen by their index -/

section

variable {P : BlockIndex → Prop} [DecidablePred P]

theorem filter_eq_nil_of_index {order : List Nat} {written : List (List Block)}
    (hwritten : Lowering.SegmentsOf order written) (hP : ∀ m ∈ order, ¬P (.node m)) :
    (written.flatMap Lowering.latest).filter (fun b => P b.id.index) = [] := by
  refine List.filter_eq_nil_iff.2 fun b hb => ?_
  obtain ⟨segments, hsegments, hb⟩ := List.mem_flatMap.1 hb
  obtain ⟨m, hm, hid⟩ := hwritten segments hsegments b (Lowering.latest_subset segments hb)
  simpa [hid] using hP m hm

/-- Blocks of a form, if none are chosen of those behind the segments of a block. -/
theorem filter_of_located {c : Lowering} {cuts : List (Nat × List Nat)} {front back : List Nat}
    {n : Nat} {entry : Block} {source : MethodGraph.Block} {before after : List (List Block)}
    {segments exits : List Block}
    (hblocks : f.blocks = withPredecessors (entry :: before.flatMap Lowering.latest ++
      Lowering.latest segments ++ after.flatMap Lowering.latest ++ exits))
    (hlocated : c.Located cuts front n back entry source before segments after)
    (hindex : source.index = n) (hexits : ∀ b ∈ exits, ¬P b.id.index)
    (hback : ∀ m ∈ back, ¬P (.node m)) :
    ∃ predecessors : BlockId → List BlockId, f.blocks.filter (fun b => P b.id.index) =
      ((entry :: before.flatMap Lowering.latest).filter (fun b => P b.id.index) ++
        if P (.node n) then Lowering.latest segments else []).map
          fun b => { b with predecessors := predecessors b.id } := by
  have hsegments : (Lowering.latest segments).filter (fun b => P b.id.index) =
      if P (.node n) then Lowering.latest segments else [] := by
    have hid : ∀ b ∈ Lowering.latest segments, b.id.index = .node n := fun b hb => by
      rw [Lowering.index_of_mem_lowerBlock hlocated.lowered (Lowering.latest_subset segments hb),
        hindex]
    split
    · next hn => exact List.filter_eq_self.2 fun b hb => by simpa [hid b hb] using hn
    · next hn => exact List.filter_eq_nil_iff.2 fun b hb => by simpa [hid b hb] using hn
  have hafter := filter_eq_nil_of_index hlocated.after hback
  have hexits : exits.filter (fun b => P b.id.index) = [] :=
    List.filter_eq_nil_iff.2 fun b hb => by simpa using hexits b hb
  refine ⟨predecessorsOf (entry :: before.flatMap Lowering.latest ++ Lowering.latest segments ++
    after.flatMap Lowering.latest ++ exits), ?_⟩
  rw [hblocks, withPredecessors_eq, List.filter_map]
  refine congrArg (List.map _) ?_
  simp only [Function.comp_def, List.filter_append, hsegments, hafter, hexits, List.append_nil]

end

/-- **Segments of a form**: they are those kept of the encoded block, with their predecessors
noted. -/
theorem segments_of_ofGraph (h : Form.ofGraph lookup g = .ok f) (hn : g.digraph.Reaches 0 n)
    (hsource : g.blocks[n]? = some source) :
    ∃ visible segments, (Lowering.mk g.method lookup).lowerBlock visible source = .ok segments ∧
      ∃ predecessors : BlockId → List BlockId, f.segments n =
        (Lowering.latest segments).map fun b => { b with predecessors := predecessors b.id } := by
  obtain ⟨hvalid, -⟩ := ofGraph_eq_ok h
  obtain ⟨front, back, horder⟩ := List.append_of_mem ((MethodGraph.mem_order_iff hvalid).2 hn)
  obtain ⟨entry, before, segments, after, hentry, -, hblocks, hlocated⟩ :=
    located_of_ofGraph h horder hsource
  obtain ⟨declared, hid, -, -⟩ := Lowering.lowerEntry_eq_ok hentry
  obtain ⟨hfront, hback⟩ := MethodGraph.not_mem_of_order horder
  have hother : ∀ {others : List Nat}, n ∉ others → ∀ m ∈ others, ¬BlockIndex.node m = .node n :=
    fun hnot m hm heq => hnot (BlockIndex.node.inj heq ▸ hm)
  obtain ⟨predecessors, hfilter⟩ := filter_of_located (P := (· = .node n)) hblocks hlocated
    (index_eq_of_valid hvalid hsource)
    (by simp [BlockId.regularExit, BlockId.exceptionalExit]) (hother hback)
  have hbefore : (entry :: before.flatMap Lowering.latest).filter
      (fun b => b.id.index = .node n) = [] := by
    rw [List.filter_cons_of_neg (by simp [hid, BlockId.entry])]
    exact filter_eq_nil_of_index (P := (· = .node n)) hlocated.before (hother hfront)
  refine ⟨_, segments, hlocated.lowered, predecessors, ?_⟩
  rw [Form.segments, hfilter, hbefore, if_pos rfl, List.nil_append]

/-- The numbers of a block's segments: as many as it has, as far as there are numbers. -/
theorem ids_segments_of_ofGraph (h : Form.ofGraph lookup g = .ok f) (hn : g.digraph.Reaches 0 n)
    (hsource : g.blocks[n]? = some source) :
    (f.segments n).map (·.id) = (List.range (min
      ((Lowering.mk g.method lookup).faultCount source + 1) 65536)).map (BlockId.mk (.node n)) := by
  obtain ⟨visible, segments, hs, predecessors, hsegments⟩ := segments_of_ofGraph h hn hsource
  rw [hsegments, List.map_map, ← Lowering.length_lowerBlock hs,
    ← index_eq_of_valid (ofGraph_eq_ok h).1 hsource,
    ← Lowering.ids_latest (Lowering.ids_lowerBlock hs)]
  rfl

/-! ## layout -/

/-- The blocks of a form: the entry, the exits and, for every block of the graph that can be
reached, one segment more than it has instructions that can fault. -/
inductive HasBlock (c : Lowering) (g : MethodGraph) : BlockId → Prop where
  | entry : HasBlock c g .entry
  | regularExit : HasBlock c g .regularExit
  | exceptionalExit : HasBlock c g .exceptionalExit
  | segment {n k : Nat} {source : MethodGraph.Block} (hn : g.digraph.Reaches 0 n)
      (hsource : g.blocks[n]? = some source) (hk : k ≤ c.faultCount source) :
      HasBlock c g ⟨.node n, k⟩

/-- Few faults give few segments. -/
theorem HasBlock.segment_lt {c : Lowering} {id : BlockId} (h : HasBlock c g id) {bound : Nat}
    (hbound : 0 < bound) (hfew : ∀ source ∈ g.blocks, c.faultCount source < bound) :
    id.segment < bound := by
  cases h with
  | segment _ hsource hk => exact hk.trans_lt (hfew _ (List.mem_of_getElem? hsource))
  | _ => exact hbound

/-- The blocks of a form and their edges. -/
structure LaidOut (c : Lowering) (g : MethodGraph) (f : Form) : Prop where
  ids : ∀ id, id ∈ f.blocks.map (·.id) ↔ HasBlock c g id
  nodup : (f.blocks.map (·.id)).Nodup
  targets : ∀ b ∈ f.blocks, ∀ e ∈ b.successors, e.target ∈ f.blocks.map (·.id)
  predecessors : ∀ b ∈ f.blocks, b.predecessors.Nodup ∧ ∀ id, id ∈ b.predecessors ↔
    ∃ b' ∈ f.blocks, b'.id = id ∧ ∃ e ∈ b'.successors, e.target = b.id
  entry : ∀ b ∈ f.blocks, b.id = .entry → b.successors = [⟨.always, .node 0⟩]
  exits : ∀ b ∈ f.blocks, b.id = .regularExit ∨ b.id = .exceptionalExit → b.successors = []
  /-- Segment `k` ends with the instruction number `k` among those that can fault. -/
  complete : ∀ b ∈ f.blocks, ∀ n k source, b.id = ⟨.node n, k⟩ → g.blocks[n]? = some source →
    ∀ i, (source.instructions.filter c.faults)[k]? = some i → c.EndsWith i b
  last : ∀ b ∈ f.blocks, ∀ n source, g.blocks[n]? = some source →
    b.id = ⟨.node n, c.faultCount source⟩ → source.LeftBy b.successors
  placed : ∀ b ∈ f.blocks, ∀ p ∈ b.statements, p.block = b.id

/-- If there are numbers for all, a segment is found at its number among those of its block. -/
theorem getElem?_of_ofGraph (h : Form.ofGraph lookup g = .ok f) (hb : b ∈ f.blocks) {n k : Nat}
    (hid : b.id = ⟨.node n, k⟩) (hsource : g.blocks[n]? = some source)
    (hfew : (Lowering.mk g.method lookup).faultCount source < 65536) :
    ∃ visible segments bare predecessors,
      (Lowering.mk g.method lookup).lowerBlock visible source = .ok segments ∧
      segments[k]? = some bare ∧ b = { bare with predecessors } := by
  obtain ⟨-, source', visible, segments, bare, preds, hsource', -, hs, hbare, rfl⟩ :=
    segment_of_ofGraph h hb (congrArg BlockId.index hid)
  obtain rfl := Option.some.inj (hsource'.symm.trans hsource)
  refine ⟨visible, segments, bare, preds, hs, ?_, rfl⟩
  obtain ⟨j, hj⟩ := List.mem_iff_getElem?.1 hbare
  have hlength : segments.length ≤ 65536 := Lowering.length_lowerBlock hs ▸ hfew
  have hnumber := (Lowering.id_of_length_le hs hlength hj).symm.trans hid
  rwa [← (BlockId.mk.inj hnumber).2]

/-- Forms have no other blocks. -/
theorem hasBlock_of_ofGraph (h : Form.ofGraph lookup g = .ok f) (hb : b ∈ f.blocks) :
    HasBlock (Lowering.mk g.method lookup) g b.id := by
  obtain ⟨hvalid, -⟩ := ofGraph_eq_ok h
  obtain ⟨bare, preds, rfl, he | ⟨n, hn, source, visible, segments, hsource, hs, hbare⟩ |
    rfl | rfl⟩ := mem_blocks_of_ofGraph h hb
  · obtain ⟨declared, rfl, -, -⟩ := Lowering.lowerEntry_eq_ok he
    exact .entry
  · obtain ⟨k, hk⟩ := List.mem_iff_getElem?.1 hbare
    have hlt := (List.getElem?_eq_some_iff.1 hk).1
    rw [Lowering.length_lowerBlock hs] at hlt
    change HasBlock _ g bare.id
    rw [Lowering.id_of_getElem?_lowerBlock hs hk, index_eq_of_valid hvalid hsource]
    refine .segment ((MethodGraph.mem_order_iff hvalid).1 hn) hsource ?_
    exact (Nat.mod_le k _).trans (Nat.le_of_lt_succ hlt)
  · exact .regularExit
  · exact .exceptionalExit

/-- Forms have all blocks. -/
theorem mem_ids_of_hasBlock (hfew : (Lowering.mk g.method lookup).FewFaults g)
    (h : Form.ofGraph lookup g = .ok f) {id : BlockId}
    (hid : HasBlock (Lowering.mk g.method lookup) g id) : id ∈ f.blocks.map (·.id) := by
  cases hid with
  | entry =>
      obtain ⟨b, hb, hid⟩ := (walkable_of_ofGraph h).entry
      exact List.mem_map.2 ⟨b, hb, hid⟩
  | @segment n k source hn hsource hk =>
      have hcount := hfew source (List.mem_of_getElem? hsource)
      have hmem := List.mem_map_of_mem (f := BlockId.mk (.node n)) (List.mem_range.2 (show
        k < min ((Lowering.mk g.method lookup).faultCount source + 1) 65536 by omega))
      rw [← ids_segments_of_ofGraph h hn hsource] at hmem
      obtain ⟨b, hb, hid⟩ := List.mem_map.1 hmem
      exact List.mem_map.2 ⟨b, (List.mem_filter.1 hb).1, hid⟩
  | regularExit | exceptionalExit =>
      obtain ⟨-, entry, parameters, written, -, -, rfl⟩ := ofGraph_eq_ok h
      simp

/-- The predecessors that are noted are the blocks with an edge into the block. -/
theorem predecessors_of_ofGraph (h : Form.ofGraph lookup g = .ok f) (hb : b ∈ f.blocks) :
    b.predecessors.Nodup ∧ ∀ id, id ∈ b.predecessors ↔
      ∃ b' ∈ f.blocks, b'.id = id ∧ ∃ e ∈ b'.successors, e.target = b.id := by
  have hnodup := nodup_ids_of_ofGraph h
  obtain ⟨-, entry, parameters, written, -, -, rfl⟩ := ofGraph_eq_ok h
  rw [ids_withPredecessors] at hnodup
  simp only [withPredecessors_eq] at hb ⊢
  obtain ⟨bare, hbare, rfl⟩ := List.mem_map.1 hb
  constructor
  · exact List.Nodup.sublist (List.Sublist.map _ List.filter_sublist) hnodup
  · intro id
    simp only [predecessorsOf, List.mem_map, List.mem_filter, List.any_eq_true,
      decide_eq_true_eq, exists_exists_and_eq_and]
    exact exists_congr fun b' => by tauto

/-- Exits lead nowhere. -/
theorem successors_of_exit (h : Form.ofGraph lookup g = .ok f) (hb : b ∈ f.blocks)
    (hid : b.id = .regularExit ∨ b.id = .exceptionalExit) : b.successors = [] := by
  obtain ⟨bare, preds, rfl, he | ⟨n, -, source, visible, segments, -, hs, hbare⟩ | rfl | rfl⟩ :=
    mem_blocks_of_ofGraph h hb
  · obtain ⟨declared, rfl, -, -⟩ := Lowering.lowerEntry_eq_ok he
    rcases hid with hid | hid <;> cases hid
  · have hnode := Lowering.index_of_mem_lowerBlock hs hbare
    change bare.id = _ ∨ bare.id = _ at hid
    rcases hid with hid | hid <;> rw [hid] at hnode <;> contradiction
  · rfl
  · rfl

/-- Statements name their block. -/
theorem placed_of_ofGraph (h : Form.ofGraph lookup g = .ok f) (hb : b ∈ f.blocks) :
    ∀ p ∈ b.statements, p.block = b.id := by
  obtain ⟨bare, preds, rfl, he | ⟨n, -, source, visible, segments, -, hs, hbare⟩ | rfl | rfl⟩ :=
    mem_blocks_of_ofGraph h hb
  · obtain ⟨declared, rfl, -, hdeclared⟩ := Lowering.lowerEntry_eq_ok he
    simp only [Block.statements, List.append_nil, List.forall_mem_map]
    intro dp hdp
    obtain ⟨v, -, s, -, rfl⟩ := hdeclared dp hdp
    rfl
  · have hplaced := Lowering.placed_lowerBlock hs hbare
    exact hplaced
  · simp [Block.statements]
  · simp [Block.statements]

/-- **Forms are well laid out**: what their blocks are, where the edges lead, and which blocks lead
to a block. No graph fails for want of a block; an error that says so is one of the look-up. -/
theorem laidOut_of_ofGraph (lookup : SentenceLookup) (g : MethodGraph)
    (hfew : ∀ source ∈ g.blocks, (Lowering.mk g.method lookup).faultCount source < 65536) :
    (∀ f, Form.ofGraph lookup g = .ok f →
      f.LaidOut (Lowering.mk g.method lookup) g ∧ ∀ b ∈ f.blocks, b.id.segment < 65536) ∧
    ∀ err, Form.ofGraph lookup g = .error err → err.IsFraming → ∃ t, lookup t = .error err := by
  refine ⟨fun f h => ⟨?_, fun b hb => ?_⟩, framed_ofGraph lookup g⟩
  · refine { ids := fun id => ⟨fun hid => ?_, mem_ids_of_hasBlock hfew h⟩
             nodup := nodup_ids_of_ofGraph h
             targets := fun b hb e he => ?_
             predecessors := fun b hb => predecessors_of_ofGraph h hb
             entry := fun b hb hid => ?_
             exits := fun b hb hid => ?_
             complete := fun b hb n k source hid hsource i hi => ?_
             last := fun b hb n source hsource hid => ?_
             placed := fun b hb => placed_of_ofGraph h hb }
    · obtain ⟨b, hb, rfl⟩ := List.mem_map.1 hid
      exact hasBlock_of_ofGraph h hb
    · obtain ⟨b', hb', hid⟩ := (walkable_of_ofGraph h).edges b hb e he
      exact List.mem_map.2 ⟨b', hb', hid⟩
    · obtain ⟨bare, preds, he, rfl⟩ := entry_of_ofGraph h hb (congrArg BlockId.index hid)
      obtain ⟨declared, rfl, -, -⟩ := Lowering.lowerEntry_eq_ok he
      rfl
    · exact successors_of_exit h hb hid
    · obtain ⟨visible, segments, bare, preds, hs, hbare, rfl⟩ :=
        getElem?_of_ofGraph h hb hid hsource (hfew source (List.mem_of_getElem? hsource))
      have hends := Lowering.endsWith_of_lowerBlock hs hi hbare
      exact ⟨hends.edges, hends.groups⟩
    · obtain ⟨visible, segments, bare, preds, hs, hbare, rfl⟩ :=
        getElem?_of_ofGraph h hb hid hsource (hfew source (List.mem_of_getElem? hsource))
      have hexits := Lowering.exits_of_lowerBlock hs hbare
      exact Lowering.leftBy_of_exits hexits
  · exact (hasBlock_of_ofGraph h hb).segment_lt (by decide) hfew

/-! ## contents -/

/-- What the segments of a block hold, read in order, is what its instructions become one after the
other, exactly if there are numbers for all segments. No branch stands inside the block. -/
theorem filled_of_ofGraph (h : Form.ofGraph lookup g = .ok f) (hn : g.digraph.Reaches 0 n)
    (hsource : g.blocks[n]? = some source) :
    (∃ lowered, source.instructions.mapM (Lowering.mk g.method lookup).lower = .ok lowered ∧
      ((f.segments n).flatMap Block.contents = lowered.flatMap Lowered.contents ↔
        (Lowering.mk g.method lookup).faultCount source < 65536)) ∧
    ∀ i ∈ source.instructions.dropLast, ∀ test, i.opcode ≠ .branch test := by
  obtain ⟨visible, segments, hs, predecessors, hsegments⟩ := segments_of_ofGraph h hn hsource
  obtain ⟨⟨lowered, hlowered, hcontents⟩, hbranches⟩ := Lowering.filled_lowerBlock hs
  have hkept : (f.segments n).flatMap Block.contents =
      (Lowering.latest segments).flatMap Block.contents := by
    rw [hsegments, List.flatMap_map]
    rfl
  refine ⟨⟨lowered, hlowered, ?_⟩, hbranches⟩
  rw [hkept, ← hcontents]
  constructor
  · intro heq
    by_contra hmany
    exact Lowering.contents_latest_ne hs (Nat.le_of_not_lt hmany) heq
  · intro hfew
    rw [Lowering.latest_of_length_le (Lowering.length_lowerBlock hs ▸ hfew)]

/-- **Nothing is lost, repeated or moved**, as long as there are numbers for all segments of a block
that can be reached: exactly then they hold, read in order, what its instructions become one after
the other. A graph with an instruction there that has no encoding, or with a branch that does not
end its block, has no form. -/
theorem contents_of_ofGraph (lookup : SentenceLookup) (g : MethodGraph) {n : Nat}
    (hn : g.digraph.Reaches 0 n) {source : MethodGraph.Block}
    (hsource : g.blocks[n]? = some source) :
    (∀ f, Form.ofGraph lookup g = .ok f →
      (f.segments n).map (·.id) = (List.range (min
        ((Lowering.mk g.method lookup).faultCount source + 1) 65536)).map (BlockId.mk (.node n)) ∧
      ∃ lowered, source.instructions.mapM (Lowering.mk g.method lookup).lower = .ok lowered ∧
        ((f.segments n).flatMap Block.contents = lowered.flatMap Lowered.contents ↔
          (Lowering.mk g.method lookup).faultCount source < 65536)) ∧
    ((∃ i ∈ source.instructions, ∃ name, i.opcode = .unsupported name) ∨
        (∃ i ∈ source.instructions.dropLast, ∃ test, i.opcode = .branch test) →
      ∃ err, Form.ofGraph lookup g = .error err) := by
  refine ⟨fun f h => ⟨ids_segments_of_ofGraph h hn hsource, (filled_of_ofGraph h hn hsource).1⟩,
    fun hbad => ?_⟩
  cases h : Form.ofGraph lookup g with
  | error err => exact ⟨err, rfl⟩
  | ok f =>
      obtain ⟨⟨lowered, hlowered, -⟩, hbranches⟩ := filled_of_ofGraph h hn hsource
      obtain ⟨i, hi, name, hop⟩ | ⟨i, hi, test, hop⟩ := hbad
      · obtain ⟨l, hl⟩ := exists_eq_ok_of_mapM_eq_ok hlowered hi
        rw [Lowering.lower, hop] at hl
        contradiction
      · exact absurd hop (hbranches i hi test)

end Form

namespace Sample.Scan

/-- A method that looks through an array. -/
def method : MethodRef := .static (.named "Sample" "Arrays" []) "Scan" [.array .int32] .int32

def array : Variable := ⟨.parameter 0, .array .int32⟩
def length : Variable := ⟨.stack 0, .int32⟩
def place : Variable := ⟨.localVar 0, .int32⟩
def inside : Variable := ⟨.stack 1, .bool⟩
def element : Variable := ⟨.stack 2, .int32⟩

/-- Goes on by the element at its place while this is in the array. The last block cannot be
reached, and has no encoding. -/
def graph : MethodGraph :=
  { method
    blocks := [
      { index := 0
        instructions := [⟨0, .arrayLength, some length, [array]⟩,
          ⟨1, .constant (.int 0), some place, []⟩, ⟨2, .jump, none, []⟩]
        successors := [1] },
      { index := 1
        instructions := [⟨3, .compare .lt, some inside, [place, length]⟩,
          ⟨4, .branch .ifTrue, none, [inside]⟩]
        successors := [2, 3] },
      { index := 2
        instructions := [⟨5, .loadElement, some element, [array, place]⟩,
          ⟨6, .binary .add, some place, [place, element]⟩, ⟨7, .jump, none, []⟩]
        successors := [1] },
      { index := 3
        instructions := [⟨8, .ret, none, [place]⟩]
        successors := [] },
      { index := 4
        instructions := [⟨9, .unsupported "calli", none, []⟩]
        successors := [] } ] }

/-- Sentences without any types of a program. -/
def lookup : SentenceLookup := Program.empty.lookup none

/-- The form of the graph. -/
def form : Form := (Form.ofGraph lookup graph).toOption.getD default

theorem form_eq : Form.ofGraph lookup graph = .ok form := by decide

theorem reaches_two : graph.digraph.Reaches 0 2 :=
  (Relation.ReflTransGen.single (b := 1) (by decide)).tail (by decide)

theorem laidOut_form : ∃ f, Form.ofGraph lookup graph = .ok f ∧
    f.LaidOut (Lowering.mk method lookup) graph :=
  ⟨form, form_eq, ((Form.laidOut_of_ofGraph lookup graph (by decide +kernel)).1 form form_eq).1⟩

/-- The same graph with a block that can be reached and has no encoding. -/
def unencoded : MethodGraph :=
  { method, blocks := graph.blocks.set 2 ⟨2, [⟨5, .unsupported "calli", none, []⟩], [1]⟩ }

theorem reaches_unencoded : unencoded.digraph.Reaches 0 2 :=
  (Relation.ReflTransGen.single (b := 1) (by decide)).tail (by decide)

/-- The element access ends the first of two segments. -/
theorem contents_form : (form.segments 2).map (·.id) = [⟨.node 2, 0⟩, ⟨.node 2, 1⟩] ∧
    (∃ lowered, graph.blocks[2].instructions.mapM (Lowering.mk method lookup).lower = .ok lowered ∧
      (form.segments 2).flatMap Block.contents = lowered.flatMap Lowered.contents) ∧
    ∃ err, Form.ofGraph lookup unencoded = .error err := by
  obtain ⟨hids, lowered, hlowered, hcontents⟩ :=
    (Form.contents_of_ofGraph lookup graph reaches_two rfl).1 form form_eq
  refine ⟨hids.trans (by decide +kernel), ⟨lowered, hlowered, hcontents.2 (by decide +kernel)⟩, ?_⟩
  exact (Form.contents_of_ofGraph lookup unencoded reaches_unencoded rfl).2
    (Or.inl ⟨_, List.mem_cons_self, _, rfl⟩)

end Sample.Scan

/-- With one segment more than there are numbers, the block does not hold what its instructions
become. -/
theorem Sample.Reread.contents_lost : ∃ f lowered, Form.ofGraph lookup (graph 65535) = .ok f ∧
    (graph 65535).digraph.Reaches 0 0 ∧ (graph 65535).blocks[0]? = some (source 65535) ∧
    (source 65535).instructions.mapM (Lowering.mk method lookup).lower = .ok lowered ∧
    (f.segments 0).flatMap Block.contents ≠ lowered.flatMap Lowered.contents := by
  obtain ⟨⟨lowered, hlowered, hcontents⟩, -⟩ := Form.filled_of_ofGraph (form_eq 65535) .refl rfl
  refine ⟨form 65535, lowered, form_eq 65535, .refl, rfl, hlowered, fun heq => ?_⟩
  exact absurd (hcontents.1 heq) (Nat.not_lt.2 (faultCount_source 65535).ge)

end Pathwise
