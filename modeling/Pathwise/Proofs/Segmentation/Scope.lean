import Pathwise.Proofs.Segmentation.Form

/-!
# Pathwise.Proofs.Segmentation.Scope

What is declared along the dominators of a block. The scope of a block are the
entry, the segments of its strict dominators and its own (`Form.scope`). No slot
is declared twice in it, and an instruction finds its slots declared there, no
later than in its own segment (`Form.declaredOnce_of_ofGraph`).

A block starts with what its nearest dominator leaves visible, since the strict
dominators of a block are the dominators of the nearest one
(`Form.encloses_cases`). The order lists the nearest dominator first, so that no slot
is declared twice follows along the order (`Form.nodup_slots_scope`).
-/

namespace Pathwise

open MethodGraph (Instruction)

namespace MethodGraph

variable {g : MethodGraph}

/-- Chains list strict dominators. -/
theorem mem_dominatorChain_order_iff {d n : Nat} :
    n ∈ g.order ∧ d ∈ g.digraph.dominatorChain 0 n ↔ g.digraph.StrictlyDominates 0 d n := by
  unfold order
  split
  · next hnil =>
      have hsize : g.digraph.size = 0 := by simp [digraph, hnil]
      refine ⟨fun h => absurd h.1 List.not_mem_nil, fun h => ?_⟩
      cases h.reaches with
      | refl => exact absurd (List.mem_singleton.1 (h.dominates _ .start)) h.ne
      | tail _ hedge =>
          have hlt := g.bounded_digraph _ _ hedge
          omega
  · next hne =>
      have hpos : 0 < g.digraph.size := List.length_pos_iff.2 hne
      rw [Digraph.mem_reversePostOrder_iff g.bounded_digraph hpos]
      constructor
      · rintro ⟨hn, hd⟩
        exact (Digraph.mem_dominatorChain_iff g.bounded_digraph hpos hn).1 hd
      · intro h
        exact ⟨h.reaches, (Digraph.mem_dominatorChain_iff g.bounded_digraph hpos h.reaches).2 h⟩

/-- Whether a block strictly dominates another one can be computed. -/
instance (d n : Nat) : Decidable (g.digraph.StrictlyDominates 0 d n) :=
  decidable_of_iff _ mem_dominatorChain_order_iff

end MethodGraph

namespace Form

/-- The blocks that every path has passed before a block of the graph: the entry and its strict
dominators. -/
def Encloses (g : MethodGraph) (n : Nat) : BlockIndex → Prop
  | .entry => True
  | .node d => g.digraph.StrictlyDominates 0 d n
  | _ => False

instance (g : MethodGraph) (n : Nat) : DecidablePred (Encloses g n)
  | .entry => isTrue trivial
  | .node d => inferInstanceAs (Decidable (g.digraph.StrictlyDominates 0 d n))
  | .regularExit => isFalse id
  | .exceptionalExit => isFalse id

/-- No block encloses itself. -/
theorem not_encloses_self (g : MethodGraph) (n : Nat) : ¬Encloses g n (.node n) :=
  fun h => h.ne rfl

/-- What a block of the graph can rely on: the entry, all segments of its strict dominators, and
its own. -/
def scope (f : Form) (g : MethodGraph) (n : Nat) : List Block :=
  f.blocks.filter fun b => b.id.index = .node n ∨ Encloses g n b.id.index

end Form

namespace Lowering

/-- The entry declares the parameters. -/
theorem declaredSlots_entry {c : Lowering} {entry : Block} {parameters : List Form.Parameter}
    (h : c.lowerEntry = .ok (entry, parameters)) :
    entry.declaredSlots = (parameterVariables c.method).map (·.slot) := by
  simp only [lowerEntry, bind_eq_ok] at h
  obtain ⟨declared, hmap, h⟩ := h
  split at h
  · contradiction
  · next hfew =>
      obtain ⟨rfl, -⟩ := Prod.mk.inj (pure_eq_ok.1 h)
      rw [List.take_of_length_le (by simpa [parameterVariables] using hfew)] at hmap
      have hslots : declared.map (·.1.statement.slot?) =
          (parameterVariables c.method).map fun v => some v.slot := by
        refine map_eq_map_of_mapM_eq_ok (fun v dp hdp => ?_) hmap
        simp only [bind_eq_ok, pure_eq_ok] at hdp
        obtain ⟨d, hd, s, -, rfl⟩ := hdp
        obtain ⟨-, -, rfl⟩ := declare_eq_ok hd
        rfl
      calc
        (declared.map (·.1)).filterMap (·.statement.slot?)
          = (declared.map (·.1.statement.slot?)).filterMap id := by
            simp [List.filterMap_map]
        _ = (parameterVariables c.method).map (·.slot) := by
            rw [hslots]
            simp [List.filterMap_map]

/-- Parameters have their own slots. -/
theorem nodup_parameterSlots (m : MethodRef) :
    ((parameterVariables m).map (·.slot)).Nodup := by
  have hslots : (parameterVariables m).map (·.slot) =
      (m.parameterSlots.zipIdx.map (·.2)).map Slot.parameter := by
    rw [parameterVariables, List.map_map, List.map_map]
    rfl
  rw [hslots, List.zipIdx_map_snd]
  exact List.Nodup.map (fun i j hij => Slot.parameter.inj hij) (List.nodup_range' ..)

end Lowering

namespace Form

variable {lookup : SentenceLookup} {g : MethodGraph} {f : Form}

/-- Without strict dominators a block is enclosed by the entry only, otherwise by what its nearest
dominator relies on. -/
theorem encloses_cases (hvalid : g.defect? = none) {front back : List Nat} {n : Nat}
    (horder : g.order = front ++ n :: back) :
    (∀ i, Encloses g n i ↔ i = .entry) ∨
      ∃ e ∈ front, ∀ i, Encloses g n i ↔ i = .node e ∨ Encloses g e i := by
  have hpos := MethodGraph.size_pos_of_valid hvalid
  by_cases hd : ∃ d, g.digraph.StrictlyDominates 0 d n
  · obtain ⟨d, hd⟩ := hd
    obtain ⟨e, he, hnearest⟩ := Digraph.exists_nearest g.bounded_digraph hpos
      ((MethodGraph.order_eq_reversePostOrder hpos).symm.trans horder) hd
    have hreaches : g.digraph.Reaches 0 e :=
      (MethodGraph.mem_order_iff hvalid).1 (horder ▸ List.mem_append_left _ he)
    refine Or.inr ⟨e, he, fun i => ?_⟩
    cases i with
    | node m =>
        simp only [Encloses, hnearest, BlockIndex.node.injEq]
        by_cases hme : m = e
        · simp [hme, Digraph.Dominates.refl]
        · simp only [hme, false_or]
          exact ⟨fun hdom => ⟨hreaches, hme, hdom⟩, fun hdom => hdom.dominates⟩
    | _ => simp [Encloses]
  · refine Or.inl fun i => ?_
    cases i with
    | node m => simpa [Encloses] using fun hm => hd ⟨m, hm⟩
    | _ => simp [Encloses]

/-! ## encoded blocks -/

/-- What is declared in some of the encoded blocks, if of those listed before a block they are the
ones in its chain, and none of those listed after it. -/
theorem slots_filter {c : Lowering} {cuts : List (Nat × List Nat)} {front back : List Nat} {n : Nat}
    {entry : Block} {source : MethodGraph.Block} {before after : List (List Block)}
    {segments : List Block}
    (hlocated : c.Located cuts front n back entry source before segments after)
    (hentry : entry.id = .entry) (hindex : source.index = n) {P : BlockIndex → Prop}
    [DecidablePred P] (hP : P .entry)
    (hfront : ∀ m ∈ front, P (.node m) ↔ m ∈ Digraph.chainOf cuts n)
    (hback : ∀ m ∈ back, ¬P (.node m)) :
    (([entry] :: before ++ segments :: after).flatten.filter fun b => P b.id.index).flatMap
        Block.declaredSlots =
      Lowering.visibleSlots (entry :: before.flatten) (Digraph.chainOf cuts n) ++
        if P (.node n) then segments.flatMap Block.declaredSlots else [] := by
  have hbefore : Lowering.visibleSlots (entry :: before.flatten) (Digraph.chainOf cuts n) =
      ((entry :: before.flatten).filter fun b => P b.id.index).flatMap Block.declaredSlots := by
    unfold Lowering.visibleSlots
    congr 1
    refine List.filter_congr fun b hb => ?_
    rcases List.mem_cons.1 hb with rfl | hb
    · rw [hentry]
      exact (decide_eq_true hP).symm
    · obtain ⟨others, hothers, hb⟩ := List.mem_flatten.1 hb
      obtain ⟨m, hm, hid⟩ := hlocated.before others hothers b hb
      rw [hid]
      exact decide_eq_decide.2 (hfront m hm).symm
  have hsegments : segments.filter (fun b => P b.id.index) =
      if P (.node n) then segments else [] := by
    have hid : ∀ b ∈ segments, b.id.index = .node n := fun b hb => by
      rw [Lowering.index_of_mem_lowerBlock hlocated.lowered hb, hindex]
    split
    · next hn => exact List.filter_eq_self.2 fun b hb => by simpa [hid b hb] using hn
    · next hn => exact List.filter_eq_nil_iff.2 fun b hb => by simpa [hid b hb] using hn
  have hafter : after.flatten.filter (fun b => P b.id.index) = [] := by
    refine List.filter_eq_nil_iff.2 fun b hb => ?_
    obtain ⟨others, hothers, hb⟩ := List.mem_flatten.1 hb
    obtain ⟨m, hm, hid⟩ := hlocated.after others hothers b hb
    simpa [hid] using hback m hm
  have hwritten : ([entry] :: before ++ segments :: after).flatten =
      (entry :: before.flatten) ++ segments ++ after.flatten := by simp
  rw [hwritten, List.filter_append, List.filter_append, hsegments, hafter, List.append_nil,
    List.flatMap_append, ← hbefore]
  split <;> rfl

section

variable {entry : Block} {parameters : List Form.Parameter} {written : List (List Block)}
  (hvalid : g.defect? = none)
  (hentry : (Lowering.mk g.method lookup).lowerEntry = .ok (entry, parameters))
  (hw : (Lowering.mk g.method lookup).lowerBlocks g (g.digraph.cuts 0) g.order [[entry]] =
    .ok written)

include hvalid hentry hw

/-- Where a block starts, what its enclosing blocks declare is visible; its own declarations come
behind that. -/
theorem slots_scope {front back : List Nat} {n : Nat} (horder : g.order = front ++ n :: back)
    {source : MethodGraph.Block} (hsource : g.blocks[n]? = some source) :
    ∃ visible, ∃ segments ∈ written,
      (Lowering.mk g.method lookup).lowerBlock visible source = .ok segments ∧
      visible = (written.flatten.filter fun b => Encloses g n b.id.index).flatMap
        Block.declaredSlots ∧
      (written.flatten.filter fun b => b.id.index = .node n ∨ Encloses g n b.id.index).flatMap
        Block.declaredSlots = visible ++ segments.flatMap Block.declaredSlots := by
  have hpos := MethodGraph.size_pos_of_valid hvalid
  have hn := (MethodGraph.mem_order_iff hvalid).1 (horder ▸ by simp : n ∈ g.order)
  have hsplit := (MethodGraph.order_eq_reversePostOrder hpos).symm.trans horder
  obtain ⟨hfront, hback⟩ := MethodGraph.not_mem_of_order horder
  rw [horder] at hw
  obtain ⟨before, segments, after, rfl, hlocated⟩ :=
    Lowering.located_of_lowerBlocks hvalid hsource hw
  have hid : entry.id = .entry := by
    obtain ⟨declared, rfl, -, -⟩ := Lowering.lowerEntry_eq_ok hentry
    rfl
  have hindex := index_eq_of_valid hvalid hsource
  have hchain : ∀ d, d ∈ Digraph.chainOf (g.digraph.cuts 0) n ↔
      g.digraph.StrictlyDominates 0 d n := fun d =>
    Digraph.mem_dominatorChain_iff g.bounded_digraph hpos hn
  have hlater : ∀ m ∈ back, ¬g.digraph.StrictlyDominates 0 m n := by
    intro m hm hd
    have hmem := Digraph.mem_front_of_dominates g.bounded_digraph hpos hsplit hd.dominates hd.ne
    have hnodup := g.nodup_order
    rw [horder] at hnodup
    exact (List.nodup_append.1 hnodup).2.2 m hmem m (List.mem_cons_of_mem n hm) rfl
  have hself := not_encloses_self g n
  refine ⟨_, segments, by simp, hlocated.lowered, ?_, ?_⟩
  · rw [slots_filter hlocated hid hindex (P := Encloses g n) trivial
      (fun d _ => (hchain d).symm) hlater, if_neg hself, List.append_nil]
  · rw [slots_filter hlocated hid hindex
      (P := fun i => i = .node n ∨ Encloses g n i) (Or.inr trivial), if_pos (Or.inl rfl)]
    · intro m hm
      have hmn : m ≠ n := fun heq => hfront (heq ▸ hm)
      simp [Encloses, hchain, hmn]
    · intro m hm
      have hmn : m ≠ n := fun heq => hback (heq ▸ hm)
      simpa [Encloses, hmn] using hlater m hm

/-- What the entry declares. -/
theorem slots_entry : (written.flatten.filter fun b => b.id.index = .entry).flatMap
    Block.declaredSlots = (Lowering.parameterVariables g.method).map (·.slot) := by
  obtain ⟨new, rfl, hnew⟩ := Lowering.exists_append_of_lowerBlocks hvalid hw
  have hid : entry.id = .entry := by
    obtain ⟨declared, rfl, -, -⟩ := Lowering.lowerEntry_eq_ok hentry
    rfl
  have hfilter : new.flatten.filter (fun b => b.id.index = .entry) = [] := by
    refine List.filter_eq_nil_iff.2 fun b hb => ?_
    obtain ⟨segments, hsegments, hb⟩ := List.mem_flatten.1 hb
    obtain ⟨m, -, hindex⟩ := hnew segments hsegments b hb
    simp [hindex]
  rw [← Lowering.declaredSlots_entry hentry]
  simp [hfilter, hid, BlockId.entry]

/-- **No slot is declared twice** in what a block can rely on. -/
theorem nodup_slots_scope {front back : List Nat} {n : Nat}
    (horder : g.order = front ++ n :: back) :
    ((written.flatten.filter fun b => b.id.index = .node n ∨ Encloses g n b.id.index).flatMap
      Block.declaredSlots).Nodup := by
  -- by induction along the order: the nearest dominator stands before the block
  induction hlength : front.length using Nat.strong_induction_on generalizing front back n with
  | _ k ih =>
      have hn := (MethodGraph.mem_order_iff hvalid).1 (horder ▸ by simp : n ∈ g.order)
      have hlt := MethodGraph.lt_length_of_reaches hvalid hn
      obtain ⟨visible, segments, -, hs, hvisible, hscope⟩ :=
        slots_scope hvalid hentry hw horder (List.getElem?_eq_getElem hlt)
      rw [hscope]
      refine (Lowering.declared_lowerBlock hs).1 ?_
      rw [hvisible]
      obtain honly | ⟨e, he, hnearest⟩ := encloses_cases hvalid horder
      · simp only [honly]
        rw [slots_entry hvalid hentry hw]
        exact Lowering.nodup_parameterSlots g.method
      · simp only [hnearest]
        obtain ⟨front', back', rfl⟩ := List.append_of_mem he
        have hshorter : front'.length < k := by
          rw [← hlength]
          simp
        have horder' : g.order = front' ++ e :: (back' ++ n :: back) := by
          rw [horder]
          simp
        exact ih front'.length hshorter horder' rfl

end

/-! ## the scope in a form -/

/-- What encoded blocks declare once, those that are kept declare at most once. -/
theorem nodup_slots_latest {written : List (List Block)} {P : BlockIndex → Prop} [DecidablePred P]
    (h : ((written.flatten.filter fun b => P b.id.index).flatMap Block.declaredSlots).Nodup) :
    (((withPredecessors (written.flatMap Lowering.latest ++
      [{ id := .regularExit }, { id := .exceptionalExit }])).filter
        fun b => P b.id.index).flatMap Block.declaredSlots).Nodup := by
  let kept : List Block := written.flatMap fun segments => segments.drop (segments.length - 65536)
  have hperm : kept.Perm (written.flatMap Lowering.latest) :=
    .flatMap_left _ fun segments _ => (Lowering.perm_latest segments).symm
  have hsub : kept.Sublist written.flatten := by
    rw [← List.flatMap_id]
    exact .flatMap_right _ fun segments _ => List.drop_sublist _ segments
  have hexits : (([{ id := .regularExit }, { id := .exceptionalExit }] : List Block).filter
      fun b => P b.id.index).flatMap Block.declaredSlots = [] := by
    refine List.flatMap_eq_nil_iff.2 fun b hb => ?_
    have hb := (List.mem_filter.1 hb).1
    simp only [List.mem_cons, List.not_mem_nil, or_false] at hb
    rcases hb with rfl | rfl <;> rfl
  rw [withPredecessors, List.filter_map, List.flatMap_map]
  change ((List.filter (fun b : Block => P b.id.index) _).flatMap Block.declaredSlots).Nodup
  rw [List.filter_append, List.flatMap_append, hexits, List.append_nil,
    ← ((hperm.filter _).flatMap_right _).nodup_iff]
  exact h.sublist ((hsub.filter _).flatMap _)

/-- Every declaration is one of a slot. -/
theorem map_slot?_declarations (h : Form.ofGraph lookup g = .ok f) {blocks : List Block}
    (hblocks : blocks ⊆ f.blocks) : (blocks.flatMap Block.declarations).map (·.statement.slot?) =
      (blocks.flatMap Block.declaredSlots).map some := by
  have hslots : ∀ b ∈ blocks,
      b.declarations.map (·.statement.slot?) = b.declaredSlots.map some := by
    intro b hb
    rw [Block.declaredSlots, List.map_filterMap, ← List.filterMap_eq_map]
    refine List.filterMap_congr fun p hp => ?_
    obtain ⟨v, -, offset, s, -, hst⟩ := declares_of_ofGraph h (hblocks hb) hp
    simp only [Function.comp_apply, hst]
    rfl
  rw [List.map_flatMap, List.map_flatMap]
  exact List.flatMap_congr hslots

/-- **Declarations are unique and sufficient**: in the scope of a block no two declarations are of
one slot. If there are numbers for all segments, then for every segment of the block each variable
of an instruction that is encoded up to there has its slot declared in the scope, in the block
itself no later than in that segment. -/
theorem declaredOnce_of_ofGraph (h : Form.ofGraph lookup g = .ok f) {n : Nat}
    (hn : g.digraph.Reaches 0 n) {source : MethodGraph.Block}
    (hsource : g.blocks[n]? = some source) :
    (((f.scope g n).flatMap Block.declarations).map (·.statement.slot?)).Nodup ∧
    ((∀ block ∈ g.blocks, (Lowering.mk g.method lookup).faultCount block < 65536) →
      ∀ b ∈ f.segments n, ∀ (k : Nat) (i : Instruction), source.instructions[k]? = some i →
        (Lowering.mk g.method lookup).segmentOf source.instructions k ≤ b.id.segment →
        ∀ v ∈ i.variables, ∃ b' ∈ f.scope g n, v.slot ∈ b'.declaredSlots ∧
          (b'.id.index = .node n → b'.id.segment ≤ b.id.segment)) := by
  have hscope : f.scope g n ⊆ f.blocks := List.filter_sublist.subset
  have hslots := map_slot?_declarations h hscope
  obtain ⟨hvalid, entry, parameters, written, hentry, hw, rfl⟩ := ofGraph_eq_ok h
  obtain ⟨front, back, horder⟩ := List.append_of_mem ((MethodGraph.mem_order_iff hvalid).2 hn)
  constructor
  · rw [hslots]
    refine List.Nodup.map (Option.some_injective Slot) ?_
    exact nodup_slots_latest (P := fun i => i = .node n ∨ Encloses g n i)
      (nodup_slots_scope hvalid hentry hw horder)
  · intro hfew b hb k i hi hk v hv
    obtain ⟨visible, segments, hsegments, hs, rfl, -⟩ :=
      slots_scope hvalid hentry hw horder hsource
    -- every encoded block is in the form
    have hmem : ∀ others ∈ written, ∀ b' ∈ others, ∃ predecessors,
        { b' with predecessors } ∈ withPredecessors (written.flatMap Lowering.latest ++
          [{ id := .regularExit }, { id := .exceptionalExit }]) := by
      intro others hothers b' hb'
      rw [← latest_of_fewFaults hfew hw hothers] at hb'
      exact ⟨_, List.mem_map_of_mem (List.mem_append_left _
        (List.mem_flatMap.2 ⟨others, hothers, hb'⟩))⟩
    have hlength : segments.length ≤ 65536 := by
      rw [Lowering.length_lowerBlock hs]
      exact hfew source (List.mem_of_getElem? hsource)
    obtain hvisible | ⟨j, hle, bare, hbare, hslot⟩ :=
      (Lowering.declared_lowerBlock hs).2 k i hi v hv
    · obtain ⟨b', hb', hslot⟩ := List.mem_flatMap.1 hvisible
      obtain ⟨hb', hencloses⟩ := List.mem_filter.1 hb'
      rw [decide_eq_true_eq] at hencloses
      obtain ⟨others, hothers, hb'⟩ := List.mem_flatten.1 hb'
      obtain ⟨preds, hb'⟩ := hmem others hothers b' hb'
      refine ⟨_, List.mem_filter.2 ⟨hb', by simp [hencloses]⟩, hslot, fun hindex => ?_⟩
      change b'.id.index = _ at hindex
      exact absurd (hindex ▸ hencloses) (not_encloses_self g n)
    · obtain ⟨preds, hmem⟩ := hmem segments hsegments bare (List.mem_of_getElem? hbare)
      have hid := Lowering.id_of_length_le hs hlength hbare
      rw [index_eq_of_valid hvalid hsource] at hid
      refine ⟨_, List.mem_filter.2 ⟨hmem, by simp [hid]⟩, hslot, fun _ => ?_⟩
      change bare.id.segment ≤ _
      rw [hid]
      exact hle.trans hk

end Form

/-- The block of the loop relies on the entry, on the blocks before the loop, and on itself. -/
theorem Sample.Scan.declaredOnce_loop :
    (form.scope graph 2).map (·.id) = [.entry, ⟨.node 0, 0⟩, ⟨.node 0, 1⟩, ⟨.node 1, 0⟩,
      ⟨.node 2, 0⟩, ⟨.node 2, 1⟩] ∧
    (((form.scope graph 2).flatMap Block.declarations).map (·.statement.slot?)).Nodup :=
  ⟨by decide +kernel, (Form.declaredOnce_of_ofGraph form_eq reaches_two rfl).1⟩

/-- With one segment more than there are numbers, the slot that is read into is declared nowhere,
though there is a segment and the first instruction touches it. -/
theorem Sample.Reread.undeclared_length : ∃ f, Form.ofGraph lookup (graph 65535) = .ok f ∧
    (graph 65535).digraph.Reaches 0 0 ∧ (graph 65535).blocks[0]? = some (source 65535) ∧
    (source 65535).instructions[0]? = some read ∧ length ∈ read.variables ∧
    (∃ b ∈ f.segments 0,
      (Lowering.mk method lookup).segmentOf (source 65535).instructions 0 ≤ b.id.segment) ∧
    ∀ b ∈ f.scope (graph 65535) 0, length.slot ∉ b.declaredSlots := by
  refine ⟨form 65535, form_eq 65535, .refl, rfl, rfl, by decide, ?_, fun b hb => ?_⟩
  · obtain ⟨predecessors, hnode⟩ := block?_node (n := 65535) rfl
    exact ⟨_, List.mem_filter.2 ⟨(Form.of_block?_eq_some hnode).1, rfl⟩, Nat.zero_le _⟩
  · exact notMem_declaredSlots (n := 65535) rfl (List.mem_filter.1 hb).1

end Pathwise
