import Pathwise.Proofs.Reference
import Pathwise.Proofs.Scoping.Instruction
import Pathwise.Proofs.Search
import Pathwise.Proofs.Segmentation.Block
import Pathwise.Proofs.Symbol

/-!
# Pathwise.Proofs.Scoping.Form

A path through a form declares every constant before it uses it
(`Form.scopedInOrder_of_trail`). A block leaves out what a dominating block has
declared, so this rests on the path having passed all segments of all dominators,
the invariant `Form.Reached`, which every edge keeps.
-/

namespace Pathwise

/-- Everything that a block asserts is scoped. -/
def Block.Scoped (provided : String → Prop) (declared : List String) (b : Block) : Prop :=
  ∀ p ∈ b.assertions ++ b.branchConditions ++ b.faultGuards, p.statement.Scoped provided declared

/-- The constants of the slots that a block declares are among the given ones. -/
def Block.DeclaresIn (m : MethodRef) (declared : List String) (b : Block) : Prop :=
  ∀ slot ∈ b.declaredSlots, m.slotSymbol slot ∈ declared

/-- The constants that statements declare. -/
def Placed.symbols (statements : List Placed) : List String :=
  statements.filterMap (·.statement.symbol?)

/-- Statements of which each declares, or asserts what is declared at the start or before it. -/
def Placed.ScopedInOrder (provided : String → Prop) (declares : Placed → Prop) :
    (declared : List String) → List Placed → Prop
  | _, [] => True
  | declared, p :: rest =>
    (declares p ∨ p.statement.Scoped provided declared) ∧
      ScopedInOrder provided declares (declared ++ symbols [p]) rest

namespace Placed.ScopedInOrder

variable {V : String → Prop} {P : Placed → Prop} {D : List String}

/-- Scopes in a row. -/
theorem append {ps qs : List Placed} (hp : ScopedInOrder V P D ps)
    (hq : ScopedInOrder V P (D ++ symbols ps) qs) : ScopedInOrder V P D (ps ++ qs) := by
  induction ps generalizing D with
  | nil => simpa [symbols] using hq
  | cons p ps ih =>
      refine ⟨hp.1, ih hp.2 ?_⟩
      rw [List.append_assoc, symbols, symbols, ← List.filterMap_append]
      exact hq

theorem of_declares {ps : List Placed} (h : ∀ p ∈ ps, P p) : ScopedInOrder V P D ps := by
  induction ps generalizing D with
  | nil => trivial
  | cons p ps ih =>
      rw [List.forall_mem_cons] at h
      exact ⟨Or.inl h.1, ih h.2⟩

theorem of_scoped {ps : List Placed} (h : ∀ p ∈ ps, p.statement.Scoped V D) :
    ScopedInOrder V P D ps := by
  induction ps generalizing D with
  | nil => trivial
  | cons p ps ih =>
      rw [List.forall_mem_cons] at h
      exact ⟨Or.inr h.1, ih fun q hq => (h.2 q hq).mono (List.subset_append_left _ _)⟩

end Placed.ScopedInOrder

namespace Lowering

open MethodGraph (Instruction)

variable {c : Lowering} {order : List Nat} {written out : List (List Block)}
  {cuts : List (Nat × List Nat)} {source : MethodGraph.Block} {g : MethodGraph}

/-! ## segments of a block -/

/-- Segments that use what is visible at the start of their block, and what is declared up to the
segment itself. -/
structure Segments.Scoped (provided : String → Prop) (m : MethodRef) (start : List Slot)
    (s : Segments) : Prop where
  visible : s.visible ⊆ start ++ s.blocks.flatMap Block.declaredSlots
  complete : ∀ (k : Nat) (b : Block), s.complete[k]? = some b → ∀ D,
    (∀ slot ∈ start, m.slotSymbol slot ∈ D) →
    (∀ j ≤ k, ∀ b' : Block, s.complete[j]? = some b' → b'.DeclaresIn m D) → b.Scoped provided D
  current : s.current.Scoped provided (s.visible.map m.slotSymbol)

namespace Segments.Scoped

variable {V : String → Prop} {m : MethodRef} {start : List Slot} {s : Segments}

theorem visible_subset (hs : s.Scoped V m start) {D : List String}
    (hstart : ∀ slot ∈ start, m.slotSymbol slot ∈ D)
    (hblocks : ∀ b ∈ s.blocks, b.DeclaresIn m D) : s.visible.map m.slotSymbol ⊆ D := by
  intro x hx
  obtain ⟨slot, hslot, rfl⟩ := List.mem_map.1 hx
  rcases List.mem_append.1 (hs.visible hslot) with hslot | hslot
  · exact hstart slot hslot
  · obtain ⟨b, hb, hslot⟩ := List.mem_flatMap.1 hslot
    exact hblocks b hb slot hslot

theorem declareAll {c : Lowering} {offset : Nat} {vs : List Variable} {out : Segments}
    (hs : s.Scoped V m start) (h : c.declareAll offset vs s = .ok out) :
    out.Scoped V m start := by
  obtain ⟨declared, rfl, -, -⟩ := declareAll_eq_ok h
  refine ⟨?_, hs.complete, fun p hp => ?_⟩
  · have hslots : (⟨s.complete, { s.current with
          declarations := s.current.declarations ++ declared }, s.visible⟩ :
          Segments).blocks.flatMap Block.declaredSlots =
        s.blocks.flatMap Block.declaredSlots ++ declared.filterMap (·.statement.slot?) := by
      simp [Segments.blocks, Block.declaredSlots]
    change _ ⊆ start ++ (Segments.blocks ⟨_, _, s.visible⟩).flatMap Block.declaredSlots
    rw [hslots, ← List.append_assoc]
    exact List.append_subset.2 ⟨List.subset_append_of_subset_left _ hs.visible,
      List.subset_append_right _ _⟩
  · exact (hs.current p hp).mono (List.map_subset _ (List.subset_append_left _ _))

theorem assert (hs : s.Scoped V m start) {statements : List Statement}
    (h : ∀ st ∈ statements, st.Scoped V (s.visible.map m.slotSymbol)) :
    (s.assert statements).Scoped V m start := by
  refine ⟨?_, hs.complete, ?_⟩
  · simpa [Segments.blocks, Segments.assert, Block.declaredSlots] using hs.visible
  · have hold := hs.current
    simp only [Block.Scoped, Segments.assert, List.forall_mem_append, List.forall_mem_map] at hold ⊢
    exact ⟨⟨⟨hold.1.1, h⟩, hold.1.2⟩, hold.2⟩

theorem branch (hs : s.Scoped V m start) {taken notTaken : Statement}
    (h : taken.Scoped V (s.visible.map m.slotSymbol) ∧
      notTaken.Scoped V (s.visible.map m.slotSymbol)) :
    (s.branch taken notTaken).Scoped V m start := by
  refine ⟨?_, hs.complete, ?_⟩
  · simpa [Segments.blocks, Segments.branch, Block.declaredSlots] using hs.visible
  · have hold := hs.current
    simp only [Block.Scoped, Segments.branch, List.forall_mem_append] at hold ⊢
    refine ⟨⟨hold.1.1, hold.1.2, ?_⟩, hold.2⟩
    simpa [Statement.link] using h

theorem split (hs : s.Scoped V m start) {groups : List (FaultGroup × Statement)}
    (h : ∀ g ∈ groups, g.2.Scoped V (s.visible.map m.slotSymbol)) :
    (s.split groups).Scoped V m start := by
  refine ⟨?_, fun k b hb D hstart hblocks => ?_, ?_⟩
  · simpa [Segments.blocks, Segments.split, Block.declaredSlots] using hs.visible
  · simp only [Segments.split, Array.getElem?_push] at hb hblocks
    by_cases hk : k = s.complete.size
    · -- the segment that is completed: all that is visible has been declared
      rw [if_pos hk] at hb
      obtain rfl := Option.some.inj hb
      have hD : s.visible.map m.slotSymbol ⊆ D := by
        refine hs.visible_subset hstart (List.forall_mem_append.2 ⟨fun b hb => ?_, ?_⟩)
        · obtain ⟨j, hj⟩ := List.mem_iff_getElem?.1 hb
          rw [Array.getElem?_toList] at hj
          have hlt := (Array.getElem?_eq_some_iff.1 hj).1
          exact hblocks j (by omega) b (by rw [if_neg (by omega), hj])
        · have hlast := hblocks k (Nat.le_refl k) _ (if_pos hk)
          exact List.forall_mem_singleton.2 hlast
      have hold := hs.current
      simp only [Block.Scoped, List.forall_mem_append, List.forall_mem_map] at hold ⊢
      exact ⟨⟨fun p hp => (hold.1.1 p hp).mono hD, fun p hp => (hold.1.2 p hp).mono hD⟩,
        fun p hp => (hold.2 p hp).mono hD, fun g hg => ((h g hg).mono hD).inGroup g.1.ordinal⟩
    · rw [if_neg hk] at hb
      have hlt := (Array.getElem?_eq_some_iff.1 hb).1
      exact hs.complete k b hb D hstart fun j hj b' hb' =>
        hblocks j hj b' (by rw [if_neg (by omega), hb'])
  · simp [Block.Scoped, Segments.split]

end Segments.Scoped

section

variable {V : String → Prop} {c : Lowering}

/-- Instructions are scoped. -/
theorem scoped_lowerAll (hl : c.lookup.Speaks V) {instructions : List Instruction}
    (hnamed : ∀ i ∈ instructions, ∀ t ∈ i.namedTypes, V t.tag) {start : List Slot}
    {s out : Segments} (h : c.lowerAll instructions s = .ok out) (hs : s.Scoped V c.method start) :
    out.Scoped V c.method start := by
  induction instructions generalizing s with
  | nil =>
      obtain rfl := Except.ok.inj h
      exact hs
  | cons i rest ih =>
      obtain ⟨hi, hrest⟩ := List.forall_mem_cons.1 hnamed
      obtain ⟨d, hd, hstep⟩ := lowerAll_cons h
      have hscoped := hs.declareAll hd
      have hD : ∀ x ∈ i.variables, c.symbol x ∈ d.visible.map c.method.slotSymbol := by
        obtain ⟨-, -, -, hvisible, -⟩ := declareAll_eq_ok hd
        intro x hx
        exact List.mem_map.2 ⟨x.slot, hvisible x hx, (c.method.variableSymbol_eq x).symm⟩
      obtain ⟨statements, hlower, h⟩ | ⟨groups, semantics, hlower, h⟩ |
        ⟨taken, notTaken, hlower, -, rfl⟩ := hstep
      · exact ih hrest h (hscoped.assert (scoped_lower hl hD hi hlower))
      · obtain ⟨hgroups, hsemantics⟩ := scoped_lower hl hD hi hlower
        exact ih hrest h ((hscoped.split hgroups).assert hsemantics)
      · exact hscoped.branch (scoped_lower hl hD hi hlower)

/-- A segment uses what is visible where its block starts, and what the segments of the block up
to itself declare. -/
theorem scoped_lowerBlock (hl : c.lookup.Speaks V) {source : MethodGraph.Block}
    (hnamed : ∀ i ∈ source.instructions, ∀ t ∈ i.namedTypes, V t.tag) {visible : List Slot}
    {segments : List Block} (h : c.lowerBlock visible source = .ok segments) {k : Nat} {b : Block}
    (hb : segments[k]? = some b) {D : List String}
    (hvisible : ∀ slot ∈ visible, c.method.slotSymbol slot ∈ D)
    (hsegments : ∀ j ≤ k, ∀ b', segments[j]? = some b' → b'.DeclaresIn c.method D) :
    b.Scoped V D := by
  obtain ⟨s, edges, hs, -, rfl⟩ := lowerBlock_eq_ok h
  have hscoped := scoped_lowerAll hl hnamed hs
    ⟨List.subset_append_left _ _, by simp, by simp [Block.Scoped]⟩
  have hcomplete : ∀ j, j < s.complete.size → (s.complete.toList ++ [{ s.current with
      successors := s.current.successors ++ edges }])[j]? = s.complete[j]? := fun j hj => by
    rw [List.getElem?_append_left (by simpa using hj), Array.getElem?_toList]
  by_cases hk : k < s.complete.size
  · rw [hcomplete k hk] at hb
    refine hscoped.complete k b hb D hvisible fun j hj b' hb' => hsegments j hj b' ?_
    rw [hcomplete j (by omega), hb']
  · obtain ⟨hlt, hlast⟩ := List.getElem?_eq_some_iff.1 hb
    obtain rfl : k = s.complete.toList.length := by
      rw [List.length_append, List.length_singleton] at hlt
      simp only [Array.length_toList] at hlt ⊢
      omega
    rw [List.getElem_concat_length rfl] at hlast
    subst hlast
    have hD : s.visible.map c.method.slotSymbol ⊆ D := by
      refine hscoped.visible_subset hvisible (List.forall_mem_append.2 ⟨fun b hb => ?_, ?_⟩)
      · obtain ⟨j, hj⟩ := List.mem_iff_getElem?.1 hb
        have hlt := (List.getElem?_eq_some_iff.1 hj).1
        exact hsegments j (Nat.le_of_lt hlt) b (by rw [List.getElem?_append_left hlt, hj])
      · have hlast := hsegments _ (Nat.le_refl _) _ hb
        exact List.forall_mem_singleton.2 hlast
    exact fun p hp => (hscoped.current p hp).mono hD

end

/-! ## edges between segments -/

/-- A complete segment leads to the next one or out of the method. -/
structure Segments.Chained (s : Segments) : Prop where
  complete : ∀ b ∈ s.complete.toList, ∀ e ∈ b.successors,
    e.target = .exceptionalExit ∨ e.target = b.id.next
  current : s.current.successors = []

theorem Segments.Chained.split {s : Segments} (hs : s.Chained)
    (groups : List (FaultGroup × Statement)) : (s.split groups).Chained := by
  refine ⟨?_, rfl⟩
  simp only [Segments.split, Array.toList_push, List.forall_mem_append, List.forall_mem_singleton,
    hs.current]
  refine ⟨hs.complete, by simp, fun e he => ?_⟩
  obtain ⟨group, -, rfl⟩ := List.mem_map.1 he
  by_cases hfault : group.1.fault.isNone
  · exact Or.inr (if_pos hfault)
  · exact Or.inl (if_neg hfault)

theorem chained_lowerAll {instructions : List Instruction} {s out : Segments}
    (h : c.lowerAll instructions s = .ok out) (hs : s.Chained) : out.Chained := by
  induction instructions generalizing s with
  | nil =>
      obtain rfl := Except.ok.inj h
      exact hs
  | cons i rest ih =>
      obtain ⟨d, hd, hstep⟩ := lowerAll_cons h
      have hd : d.Chained := by
        obtain ⟨declared, rfl, -, -⟩ := declareAll_eq_ok hd
        exact ⟨hs.complete, hs.current⟩
      obtain ⟨statements, -, h⟩ | ⟨groups, semantics, -, h⟩ | ⟨taken, notTaken, -, -, rfl⟩ := hstep
      · exact ih h ⟨hd.complete, hd.current⟩
      · exact ih h ⟨(hd.split groups).complete, (hd.split groups).current⟩
      · exact ⟨hd.complete, hd.current⟩

/-- Where a segment leads: out of the method, to the next segment or, from the last segment, to
another block of the graph. -/
theorem edge_lowerBlock {visible : List Slot} {segments : List Block}
    (h : c.lowerBlock visible source = .ok segments) {b : Block} (hb : b ∈ segments) {e : Edge}
    (he : e ∈ b.successors) :
    e.target = .regularExit ∨ e.target = .exceptionalExit ∨
      (∃ k b', segments[k]? = some b ∧ segments[k + 1]? = some b' ∧ e.target = b'.id) ∨
      (∃ n ∈ source.successors, e.target = .node n) ∧ segments.getLast? = some b := by
  obtain ⟨s, edges, hs, hedges, rfl⟩ := lowerBlock_eq_ok h
  have hchained := chained_lowerAll hs ⟨by simp, rfl⟩
  rcases List.mem_append.1 hb with hb | hb
  · obtain hexit | hnext := hchained.complete b hb e he
    · exact Or.inr (Or.inl hexit)
    · obtain ⟨k, hk⟩ := List.mem_iff_getElem?.1 hb
      have hlt := (List.getElem?_eq_some_iff.1 hk).1
      rw [← List.getElem?_append_left hlt] at hk
      have hk' := List.getElem?_eq_getElem (l := s.complete.toList ++ [{ s.current with
        successors := s.current.successors ++ edges }]) (i := k + 1) (by simpa using hlt)
      refine Or.inr (Or.inr (Or.inl ⟨k, _, hk, hk', ?_⟩))
      rw [hnext, id_of_getElem?_lowerBlock h hk, id_of_getElem?_lowerBlock h hk']
      simp [BlockId.next]
  · obtain rfl := List.mem_singleton.1 hb
    rw [hchained.current, List.nil_append] at he
    obtain ⟨-, taken, other, -, hsucc, rfl⟩ | ⟨-, target, rfl, hexit | hexit | hnext⟩ :=
      exits_cases hedges
    · refine Or.inr (Or.inr (Or.inr ⟨?_, List.getLast?_concat⟩))
      rw [hsucc]
      simp only [List.mem_cons, List.not_mem_nil, or_false] at he
      rcases he with rfl | rfl
      · exact ⟨taken, by simp⟩
      · exact ⟨other, by simp⟩
    · rw [List.mem_singleton.1 he]
      exact Or.inl hexit.1
    · rw [List.mem_singleton.1 he]
      exact Or.inr (Or.inl hexit.1)
    · obtain ⟨next, rfl, hsucc, -⟩ := hnext
      rw [List.mem_singleton.1 he]
      exact Or.inr (Or.inr (Or.inr ⟨⟨next, by simp [hsucc]⟩, List.getLast?_concat⟩))

/-! ## blocks of a graph -/

/-- What is written stays. -/
theorem subset_lowerBlocks (h : c.lowerBlocks g cuts order written = .ok out) :
    written ⊆ out := by
  induction order generalizing written with
  | nil =>
      obtain rfl := Except.ok.inj h
      exact List.Subset.refl _
  | cons n order ih =>
      obtain ⟨source, segments, -, -, h⟩ := lowerBlocks_cons h
      exact List.Subset.trans (List.subset_append_left _ _) (ih h)

/-- None of the blocks is a segment of a listed one. -/
def Fresh (order : List Nat) (written : List (List Block)) : Prop :=
  ∀ n ∈ order, ∀ segments ∈ written, ∀ b ∈ segments, b.id.index ≠ .node n

theorem Fresh.append {n : Nat} {written : List (List Block)} {segments : List Block}
    {visible : List Slot} (hnew : Fresh (n :: order) written) (horder : (n :: order).Nodup)
    (hindex : source.index = n) (hs : c.lowerBlock visible source = .ok segments) :
    Fresh order (written ++ [segments]) := by
  intro m hm others hothers b hb
  rcases List.mem_append.1 hothers with hothers | hothers
  · exact hnew m (List.mem_cons_of_mem n hm) others hothers b hb
  · rw [List.mem_singleton.1 hothers] at hb
    rw [index_of_mem_lowerBlock hs hb, hindex]
    rintro ⟨⟩
    exact (List.nodup_cons.1 horder).1 hm

/-- Blocks have different ids. -/
theorem nodup_ids_lowerBlocks (hvalid : g.defect? = none)
    (h : c.lowerBlocks g cuts order written = .ok out) (horder : order.Nodup)
    (hnew : Fresh order written) (hwritten : ((written.flatMap latest).map (·.id)).Nodup) :
    ((out.flatMap latest).map (·.id)).Nodup := by
  induction order generalizing written with
  | nil =>
      obtain rfl := Except.ok.inj h
      exact hwritten
  | cons n order ih =>
      obtain ⟨source, segments, hn, hs, h⟩ := lowerBlocks_cons h
      have hindex := Form.index_eq_of_valid hvalid hn
      refine ih h (List.nodup_cons.1 horder).2 (hnew.append horder hindex hs) ?_
      rw [List.flatMap_append, List.map_append, List.flatMap_singleton]
      refine hwritten.append ?_ ?_
      · rw [ids_latest (ids_lowerBlock hs)]
        exact List.nodup_range.map fun i j hij => (BlockId.mk.inj hij).2
      · intro id hid hid'
        obtain ⟨b, hb, rfl⟩ := List.mem_map.1 hid
        obtain ⟨others, hothers, hb⟩ := List.mem_flatMap.1 hb
        obtain ⟨b', hb', heq⟩ := List.mem_map.1 hid'
        have hnode := index_of_mem_lowerBlock hs (latest_subset segments hb')
        rw [heq, hindex] at hnode
        exact hnew n List.mem_cons_self others hothers b (latest_subset others hb) hnode

/-- One block of the graph among the encoded ones: it was encoded behind some of them, and its
segments are those that are numbered for it. -/
structure Laid (c : Lowering) (cuts : List (Nat × List Nat)) (out : List (List Block)) (n : Nat)
    (source : MethodGraph.Block) (before : List (List Block)) (segments : List Block) : Prop where
  lowered : c.lowerBlock (visibleSlots before.flatten (Digraph.chainOf cuts n)) source =
    .ok segments
  subset : before ++ [segments] ⊆ out
  complete : ∀ others ∈ out, ∀ b ∈ others, b.id.index = .node n → others = segments

/-- Every listed block is laid out once. -/
theorem laid_lowerBlocks (hvalid : g.defect? = none)
    (h : c.lowerBlocks g cuts order written = .ok out) (horder : order.Nodup)
    (hnew : Fresh order written) {n : Nat} (hn : n ∈ order) (hsource : g.blocks[n]? = some source) :
    ∃ before segments, c.Laid cuts out n source before segments := by
  induction order generalizing written with
  | nil => contradiction
  | cons k order ih =>
      have hrest := (List.nodup_cons.1 horder).2
      obtain ⟨source', segments, hk, hs, hout⟩ := lowerBlocks_cons h
      have hindex := Form.index_eq_of_valid hvalid hk
      rcases List.mem_cons.1 hn with rfl | hn
      · obtain rfl := Option.some.inj (hk.symm.trans hsource)
        refine ⟨written, segments, hs, subset_lowerBlocks hout, fun others hothers b hb hid => ?_⟩
        obtain hmem | ⟨m, hm, source, visible, hsource', hs'⟩ := mem_lowerBlocks hout hothers
        · refine List.mem_singleton.1 ((List.mem_append.1 hmem).resolve_left fun hmem => ?_)
          exact hnew n List.mem_cons_self others hmem b hb hid
        · have hnode := (index_of_mem_lowerBlock hs' hb).symm.trans hid
          rw [Form.index_eq_of_valid hvalid hsource'] at hnode
          obtain rfl := BlockIndex.node.inj hnode
          exact absurd hm (List.nodup_cons.1 horder).1
      · exact ih hout hrest (hnew.append horder hindex hs) hn

end Lowering

/-! ## blocks of a form -/

namespace MethodGraph

variable {g : MethodGraph}

theorem order_eq_reversePostOrder (h : 0 < g.blocks.length) :
    g.order = g.digraph.reversePostOrder [0] :=
  if_neg (List.length_pos_iff.1 h)

theorem nodup_order (g : MethodGraph) : g.order.Nodup := by
  unfold order
  split
  · exact List.nodup_nil
  · exact g.digraph.nodup_reversePostOrder [0]

/-- Edges lead to successors. -/
theorem mem_edges_digraph {n m : Nat} :
    (n, m) ∈ g.digraph.edges ↔
      ∃ b, g.blocks[n]? = some b ∧ m ∈ b.successors ∧ m < g.blocks.length := by
  simp only [digraph, List.mem_flatMap, Prod.exists, List.mem_map, List.mem_filter,
    decide_eq_true_eq, Prod.mk.injEq, List.mem_zipIdx_iff_getElem?]
  constructor
  · rintro ⟨b, position, hb, s, hs, rfl, rfl⟩
    exact ⟨b, hb, hs⟩
  · rintro ⟨b, hb, hs⟩
    exact ⟨b, n, hb, m, hs, rfl, rfl⟩

theorem bounded_digraph (g : MethodGraph) : g.digraph.Bounded := by
  intro n m h
  obtain ⟨b, -, -, hm⟩ := mem_edges_digraph.1 h
  exact hm

/-- A valid graph has an entry, and its edges lead to blocks. -/
theorem edge_of_valid (h : g.defect? = none) {n m : Nat} {b : Block} (hb : g.blocks[n]? = some b)
    (hm : m ∈ b.successors) : (n, m) ∈ g.digraph.edges := by
  refine mem_edges_digraph.2 ⟨b, hb, hm, ?_⟩
  unfold defect? at h
  split at h
  · contradiction
  · rw [List.findSome?_eq_none_iff] at h
    have hdefect : b.defect? g.blocks.length n = none :=
      h (b, n) (List.mem_zipIdx_iff_getElem?.2 hb)
    unfold Block.defect? at hdefect
    split at hdefect
    · contradiction
    · rw [Option.map_eq_none_iff, List.find?_eq_none] at hdefect
      simpa using hdefect m hm

theorem size_pos_of_valid (h : g.defect? = none) : 0 < g.digraph.size := by
  unfold defect? at h
  split at h
  · contradiction
  · next hne => exact List.length_pos_iff.2 hne

end MethodGraph

namespace Form

variable {lookup : SentenceLookup} {g : MethodGraph} {f : Form}

/-- The declarations of a form. -/
def Declares (f : Form) (p : Placed) : Prop := ∃ b ∈ f.blocks, p ∈ b.declarations

theorem fresh_entry {c : Lowering} {entry : Block} {parameters : List Form.Parameter}
    (h : c.lowerEntry = .ok (entry, parameters)) (order : List Nat) :
    Lowering.Fresh order [[entry]] := by
  obtain ⟨declared, rfl, -, -⟩ := Lowering.lowerEntry_eq_ok h
  simp [Lowering.Fresh, BlockId.entry]

/-- A form repeats no id. -/
theorem nodup_ids_of_ofGraph (h : Form.ofGraph lookup g = .ok f) :
    (f.blocks.map (·.id)).Nodup := by
  obtain ⟨hvalid, entry, parameters, written, he, hw, rfl⟩ := ofGraph_eq_ok h
  have hids := Lowering.nodup_ids_lowerBlocks hvalid hw g.nodup_order (fresh_entry he _)
    (by simp)
  rw [ids_withPredecessors, List.map_append]
  refine hids.append (by decide) fun id hid hexit => ?_
  obtain ⟨b, hb, rfl⟩ := List.mem_map.1 hid
  obtain ⟨segments, hsegments, hb⟩ := List.mem_flatMap.1 hb
  have hb := Lowering.latest_subset segments hb
  obtain hentry | ⟨n, -, source, visible, -, hs⟩ := Lowering.mem_lowerBlocks hw hsegments
  · obtain rfl := List.mem_singleton.1 hentry
    obtain rfl := List.mem_singleton.1 hb
    obtain ⟨declared, rfl, -, -⟩ := Lowering.lowerEntry_eq_ok he
    simp [BlockId.entry, BlockId.regularExit, BlockId.exceptionalExit] at hexit
  · have hnode := Lowering.index_of_mem_lowerBlock hs hb
    simp only [List.map_cons, List.map_nil, List.mem_cons, List.not_mem_nil, or_false] at hexit
    rcases hexit with hexit | hexit <;> rw [hexit] at hnode <;> cases hnode

/-- Where the segments of a block of the graph stand among all that is written. -/
theorem laid_of_ofGraph (h : Form.ofGraph lookup g = .ok f) {b : Block} (hb : b ∈ f.blocks)
    {n : Nat} (hid : b.id.index = .node n) :
    ∃ entry written source before segments,
      (Lowering.mk g.method lookup).lowerEntry = .ok (entry, f.parameters) ∧
      (Lowering.mk g.method lookup).lowerBlocks g (g.digraph.cuts 0) g.order [[entry]] =
        .ok written ∧
      f.blocks = withPredecessors (written.flatMap Lowering.latest ++
        [{ id := .regularExit }, { id := .exceptionalExit }]) ∧
      f.declared = written.flatten.flatMap Block.declarations ∧
      g.blocks[n]? = some source ∧
      (Lowering.mk g.method lookup).Laid (g.digraph.cuts 0) written n source before segments := by
  obtain ⟨hn, source, -, -, -, -, hsource, -⟩ := segment_of_ofGraph h hb hid
  obtain ⟨hvalid, entry, parameters, written, he, hw, rfl⟩ := ofGraph_eq_ok h
  obtain ⟨before, segments, hlaid⟩ := Lowering.laid_lowerBlocks hvalid hw g.nodup_order
    (fresh_entry he _) hn hsource
  exact ⟨entry, written, source, before, segments, he, hw, rfl, rfl, hsource, hlaid⟩

/-- A block of a form that is numbered for a block of the graph is one of its segments. -/
theorem mem_latest_of_laid {c : Lowering} {cuts : List (Nat × List Nat)}
    {written before : List (List Block)} {segments : List Block} {n : Nat}
    {source : MethodGraph.Block}
    (hblocks : f.blocks = withPredecessors (written.flatMap Lowering.latest ++
      [{ id := .regularExit }, { id := .exceptionalExit }]))
    (hlaid : c.Laid cuts written n source before segments) {b : Block} (hb : b ∈ f.blocks)
    (hid : b.id.index = .node n) :
    ∃ bare ∈ Lowering.latest segments, ∃ predecessors, b = { bare with predecessors } := by
  rw [hblocks] at hb
  obtain ⟨bare, hbare, rfl⟩ := List.mem_map.1 hb
  rcases List.mem_append.1 hbare with hbare | hbare
  · obtain ⟨others, hothers, hbare⟩ := List.mem_flatMap.1 hbare
    obtain rfl := hlaid.complete others hothers bare (Lowering.latest_subset others hbare) hid
    exact ⟨bare, hbare, _, rfl⟩
  · simp only [List.mem_cons, List.not_mem_nil, or_false] at hbare
    rcases hbare with rfl | rfl <;> contradiction

/-- No segment is replaced if there are numbers for all. -/
theorem latest_of_fewFaults {c : Lowering} (hfew : c.FewFaults g) {cuts : List (Nat × List Nat)}
    {order : List Nat} {entry : Block} {written : List (List Block)}
    (h : c.lowerBlocks g cuts order [[entry]] = .ok written) {segments : List Block}
    (hsegments : segments ∈ written) : Lowering.latest segments = segments := by
  obtain hentry | ⟨n, -, source, visible, hsource, hs⟩ := Lowering.mem_lowerBlocks h hsegments
  · rw [List.mem_singleton.1 hentry, Lowering.latest_singleton]
  · refine Lowering.latest_of_length_le ?_
    rw [Lowering.length_lowerBlock hs]
    exact hfew source (List.mem_of_getElem? hsource)

/-- Where a segment stands if none is replaced: its block was encoded behind some other blocks, and
the segments of the block are those that are numbered for it. -/
theorem laid_of_fewFaults (hfew : (Lowering.mk g.method lookup).FewFaults g)
    (h : Form.ofGraph lookup g = .ok f) {b : Block} (hb : b ∈ f.blocks) {n : Nat}
    (hid : b.id.index = .node n) :
    ∃ source before segments, g.blocks[n]? = some source ∧
      (Lowering.mk g.method lookup).lowerBlock
        (Lowering.visibleSlots before (g.digraph.dominatorChain 0 n)) source = .ok segments ∧
      segments.length ≤ 65536 ∧
      (∀ bare ∈ before ++ segments, ∃ predecessors, { bare with predecessors } ∈ f.blocks) ∧
      ∀ b' ∈ f.blocks, b'.id.index = .node n →
        ∃ bare ∈ segments, ∃ predecessors, b' = { bare with predecessors } := by
  obtain ⟨entry, written, source, before, segments, -, hw, hblocks, -, hsource, hlaid⟩ :=
    laid_of_ofGraph h hb hid
  refine ⟨source, before.flatten, segments, hsource, hlaid.lowered, ?_, fun bare hbare => ?_,
    fun b' hb' hid' => ?_⟩
  · rw [Lowering.length_lowerBlock hlaid.lowered]
    exact hfew source (List.mem_of_getElem? hsource)
  · obtain ⟨others, hothers, hbare⟩ : ∃ others ∈ before ++ [segments], bare ∈ others := by
      simpa [or_and_right, exists_or] using hbare
    have hothers := hlaid.subset hothers
    rw [← latest_of_fewFaults hfew hw hothers] at hbare
    rw [hblocks]
    exact ⟨_, List.mem_map_of_mem (List.mem_append_left _
      (List.mem_flatMap.2 ⟨others, hothers, hbare⟩))⟩
  · obtain ⟨bare, hbare, preds, rfl⟩ := mem_latest_of_laid hblocks hlaid hb' hid'
    exact ⟨bare, Lowering.latest_subset segments hbare, preds, rfl⟩

/-- Where a segment of a form leads. -/
theorem edge_of_ofGraph (hfew : (Lowering.mk g.method lookup).FewFaults g)
    (h : Form.ofGraph lookup g = .ok f) {b : Block} (hb : b ∈ f.blocks)
    {n : Nat} (hid : b.id.index = .node n) {e : Edge} (he : e ∈ b.successors) :
    e.target = .regularExit ∨ e.target = .exceptionalExit ∨
      e.target = ⟨.node n, b.id.segment + 1⟩ ∨
      (∃ m, (n, m) ∈ g.digraph.edges ∧ e.target = .node m) ∧
        ∀ b' ∈ f.blocks, b'.id.index = .node n → b'.id.segment ≤ b.id.segment := by
  obtain ⟨hvalid, -⟩ := ofGraph_eq_ok h
  obtain ⟨source, before, segments, hsource, hs, hlength, -, hall⟩ :=
    laid_of_fewFaults hfew h hb hid
  have hindex := index_eq_of_valid hvalid hsource
  obtain ⟨bare, hbare, preds, rfl⟩ := hall b hb hid
  obtain hexit | hexit | ⟨k, b', hk, hk', htarget⟩ | ⟨⟨m, hm, htarget⟩, hlast⟩ :=
    Lowering.edge_lowerBlock hs hbare he
  · exact Or.inl hexit
  · exact Or.inr (Or.inl hexit)
  · refine Or.inr (Or.inr (Or.inl ?_))
    have hbare := Lowering.id_of_length_le hs hlength hk
    rw [htarget, Lowering.id_of_length_le hs hlength hk', hindex]
    change _ = BlockId.mk _ (bare.id.segment + 1)
    rw [hbare]
  · refine Or.inr (Or.inr (Or.inr ⟨⟨m, MethodGraph.edge_of_valid hvalid hsource hm, htarget⟩, ?_⟩))
    intro b' hb' hid'
    obtain ⟨bare', hbare', preds', rfl⟩ := hall b' hb' hid'
    obtain ⟨k, hk⟩ := List.mem_iff_getElem?.1 hbare'
    have hlt := (List.getElem?_eq_some_iff.1 hk).1
    rw [List.getLast?_eq_getElem?] at hlast
    change bare'.id.segment ≤ bare.id.segment
    rw [Lowering.id_of_length_le hs hlength hk, Lowering.id_of_length_le hs hlength hlast]
    change k ≤ segments.length - 1
    omega

/-- The blocks that declare for a segment: the entry, the dominators of its block, and the
segments of the block up to itself. -/
inductive Declaring (g : MethodGraph) (n segment : Nat) : BlockId → Prop where
  | entry : Declaring g n segment .entry
  | dominator {d k : Nat} (h : d ∈ g.digraph.dominatorChain 0 n) :
      Declaring g n segment ⟨.node d, k⟩
  | segment {k : Nat} (h : k ≤ segment) : Declaring g n segment ⟨.node n, k⟩

section

variable {p : Program} {exceptionBase : Option TypeRef}

theorem mem_mentionedTypes_of_named {source : MethodGraph.Block} (hsource : source ∈ g.blocks)
    {i : MethodGraph.Instruction} (hi : i ∈ source.instructions) {t : TypeRef}
    (ht : t ∈ i.namedTypes) : t ∈ g.mentionedTypes := by
  simp only [MethodGraph.mentionedTypes, List.mem_eraseDups, List.mem_append, List.mem_flatMap]
  exact Or.inl (Or.inr ⟨source, hsource, i, hi, Or.inr ht⟩)

/-- Visible slots are declared. -/
theorem mem_visibleSlots {blocks : List Block} {dominators : List Nat} {slot : Slot}
    (h : slot ∈ Lowering.visibleSlots blocks dominators) :
    ∃ b ∈ blocks, slot ∈ b.declaredSlots ∧
      (b.id.index = .entry ∨ ∃ d ∈ dominators, b.id.index = .node d) := by
  obtain ⟨b, hb, hslot⟩ := List.mem_flatMap.1 h
  obtain ⟨hb, hindex⟩ := List.mem_filter.1 hb
  refine ⟨b, hb, hslot, ?_⟩
  cases hid : b.id.index with
  | entry => exact Or.inl rfl
  | node n => exact Or.inr ⟨n, by simpa [hid] using hindex, rfl⟩
  | _ => simp [hid] at hindex

/-- A segment of a form uses what has been declared for its method. -/
theorem scoped_of_declared {V : String → Prop} (hl : lookup.Speaks V)
    (ht : ∀ t ∈ g.mentionedTypes, V t.tag)
    (h : Form.ofGraph lookup g = .ok f) {b : Block} (hb : b ∈ f.blocks) {n : Nat}
    (hid : b.id.index = .node n) {D : List String}
    (hD : ∀ p ∈ f.declared, ∀ slot ∈ p.statement.slot?, g.method.slotSymbol slot ∈ D) :
    b.Scoped V D := by
  obtain ⟨entry, written, source, before, segments, -, hw, hblocks, hdeclared, hsource, hlaid⟩ :=
    laid_of_ofGraph h hb hid
  have hnamed : ∀ i ∈ source.instructions, ∀ t ∈ i.namedTypes, V t.tag := fun i hi t hnamed =>
    ht t (mem_mentionedTypes_of_named (List.mem_of_getElem? hsource) hi hnamed)
  have hall : ∀ others ∈ before ++ [segments], ∀ b ∈ others, b.DeclaresIn g.method D := by
    intro others hothers b hb slot hslot
    obtain ⟨p, hp, hslot⟩ := List.mem_filterMap.1 hslot
    refine hD p ?_ slot hslot
    rw [hdeclared]
    exact List.mem_flatMap.2 ⟨b, List.mem_flatten.2 ⟨others, hlaid.subset hothers, hb⟩, hp⟩
  obtain ⟨bare, hbare, preds, rfl⟩ := mem_latest_of_laid hblocks hlaid hb hid
  obtain ⟨k, hk, -⟩ := Lowering.mem_latest_iff.1 hbare
  refine Lowering.scoped_lowerBlock hl hnamed hlaid.lowered hk (fun slot hslot => ?_) ?_
  · obtain ⟨b', hb', hslot, -⟩ := mem_visibleSlots hslot
    obtain ⟨others, hothers, hb'⟩ := List.mem_flatten.1 hb'
    exact hall others (List.mem_append_left _ hothers) b' hb' slot hslot
  · intro j _ b' hb'
    exact hall segments (List.mem_append_right _ (List.mem_singleton_self _)) b'
      (List.mem_of_getElem? hb')

/-- If none is replaced, a segment of a form uses what its declaring blocks declare. -/
theorem scoped_of_ofGraph {V : String → Prop} (hl : lookup.Speaks V)
    (ht : ∀ t ∈ g.mentionedTypes, V t.tag) (hfew : (Lowering.mk g.method lookup).FewFaults g)
    (h : Form.ofGraph lookup g = .ok f) {b : Block} (hb : b ∈ f.blocks) {n : Nat}
    (hid : b.id.index = .node n) {D : List String}
    (hD : ∀ b' ∈ f.blocks, Declaring g n b.id.segment b'.id → b'.DeclaresIn g.method D) :
    b.Scoped V D := by
  obtain ⟨source, before, segments, hsource, hs, hlength, hsub, hall⟩ :=
    laid_of_fewFaults hfew h hb hid
  have hnamed : ∀ i ∈ source.instructions, ∀ t ∈ i.namedTypes, V t.tag := fun i hi t hnamed =>
    ht t (mem_mentionedTypes_of_named (List.mem_of_getElem? hsource) hi hnamed)
  have hindex := index_eq_of_valid (ofGraph_eq_ok h).1 hsource
  obtain ⟨bare, hbare, preds, rfl⟩ := hall b hb hid
  obtain ⟨k, hk⟩ := List.mem_iff_getElem?.1 hbare
  refine Lowering.scoped_lowerBlock hl hnamed hs hk (fun slot hslot => ?_) ?_
  · obtain ⟨b', hb', hslot, hdeclaring⟩ := mem_visibleSlots hslot
    obtain ⟨preds', hmem⟩ := hsub b' (List.mem_append_left _ hb')
    refine hD _ hmem ?_ slot hslot
    obtain hentry | ⟨d, hd, hnode⟩ := hdeclaring
    · obtain ⟨entry, preds'', he, heq⟩ := entry_of_ofGraph h hmem hentry
      obtain ⟨declared, rfl, -, -⟩ := Lowering.lowerEntry_eq_ok he
      have hid : b'.id = .entry := congrArg Block.id heq
      rw [hid]
      exact .entry
    · have hid : b'.id = ⟨.node d, b'.id.segment⟩ := by rw [← hnode]
      rw [hid]
      exact .dominator hd
  · intro j hj b' hb'
    obtain ⟨preds', hmem⟩ := hsub b' (List.mem_append_right _ (List.mem_of_getElem? hb'))
    refine fun slot hslot => hD _ hmem ?_ slot hslot
    change Declaring g n bare.id.segment b'.id
    rw [Lowering.id_of_length_le hs hlength hk, Lowering.id_of_length_le hs hlength hb', hindex]
    exact .segment hj

end

/-! ## paths -/

/-- What a path has passed where it reaches a block: the entry, all segments of the dominators,
and the earlier segments of the block itself. -/
inductive Reached (g : MethodGraph) (f : Form) (passed : List BlockId) : BlockId → Prop where
  | entry : Reached g f passed .entry
  | node {n k : Nat} (hentry : .entry ∈ passed) (hsegments : ∀ j < k, ⟨.node n, j⟩ ∈ passed)
      (hdominators : ∀ d ≠ n, n ∉ (g.digraph.without d).reachable 0 → ∀ b ∈ f.blocks,
        b.id.index = .node d → b.id ∈ passed) :
      Reached g f passed ⟨.node n, k⟩

/-- Following an edge keeps the invariant. A dominator of the target other than the block that is
left dominates that block too: a detour round it would go on along the edge. -/
theorem Reached.follow (hfew : (Lowering.mk g.method lookup).FewFaults g)
    (h : Form.ofGraph lookup g = .ok f) {passed : List BlockId} {id : BlockId}
    {b : Block} (hb : f.block? id = some b) {e : Edge} (he : e ∈ b.successors)
    (hregular : e.target ≠ .regularExit) (hexceptional : e.target ≠ .exceptionalExit)
    (hr : Reached g f passed id) : Reached g f (id :: passed) e.target := by
  obtain ⟨hvalid, -⟩ := ofGraph_eq_ok h
  obtain ⟨hmem, rfl⟩ := of_block?_eq_some hb
  have hbounded := g.bounded_digraph
  have hpos := MethodGraph.size_pos_of_valid hvalid
  generalize hid : b.id = id at hr
  cases hr with
  | entry =>
      obtain ⟨entry, preds, hentry, rfl⟩ := entry_of_ofGraph h hmem (by rw [hid]; rfl)
      obtain ⟨declared, rfl, -, -⟩ := Lowering.lowerEntry_eq_ok hentry
      rw [List.mem_singleton.1 he]
      refine .node List.mem_cons_self (by simp) fun d _ hcut => ?_
      exact absurd (Digraph.mem_reachable_self (hbounded.without d) hpos) hcut
  | @node n k hentry hsegments hdominators =>
      have hindex : b.id.index = .node n := by rw [hid]
      have hk : b.id.segment = k := by rw [hid]
      obtain hexit | hexit | hnext | ⟨⟨m, hedge, htarget⟩, hlast⟩ :=
        edge_of_ofGraph hfew h hmem hindex he
      · contradiction
      · contradiction
      · rw [hnext, hk]
        refine .node (List.mem_cons_of_mem _ hentry) (fun j hj => ?_) fun d hd hcut b' hb' hd' =>
          List.mem_cons_of_mem _ (hdominators d hd hcut b' hb' hd')
        by_cases hjk : j = k
        · simp [hjk]
        · exact List.mem_cons_of_mem _ (hsegments j (by omega))
      · rw [htarget]
        refine .node (List.mem_cons_of_mem _ hentry) (by simp) fun d hd hcut b' hb' hd' => ?_
        by_cases hdn : d = n
        · subst hdn
          have hle := hlast b' hb' hd'
          have hid' : b'.id = ⟨.node d, b'.id.segment⟩ := by rw [← hd']
          rw [hid']
          by_cases hbk : b'.id.segment = k
          · simp [hbk]
          · exact List.mem_cons_of_mem _ (hsegments _ (by omega))
        · refine List.mem_cons_of_mem _ (hdominators d hdn (fun hn => hcut ?_) b' hb' hd')
          exact Digraph.mem_reachable_of_edge (hbounded.without d) hpos hn
            (Digraph.mem_edges_without.2 ⟨hedge, Ne.symm hdn, Ne.symm hd⟩)

/-- The blocks that declare for a segment have been passed where it is reached. -/
theorem Reached.mem_of_declaring {passed : List BlockId} {n k : Nat}
    (hr : Reached g f passed ⟨.node n, k⟩) {b : Block} (hb : b ∈ f.blocks)
    (h : Declaring g n k b.id) : b.id ∈ ⟨.node n, k⟩ :: passed := by
  cases hr with
  | node hentry hsegments hdominators =>
      generalize hid : b.id = id at h
      cases h with
      | entry => exact List.mem_cons_of_mem _ hentry
      | @dominator d j hd =>
          obtain ⟨hne, hcut⟩ := Digraph.of_mem_dominatorChain hd
          rw [← hid]
          exact List.mem_cons_of_mem _ (hdominators d hne hcut b hb (by rw [hid]))
      | @segment j hj =>
          by_cases hjk : j = k
          · simp [hjk]
          · exact List.mem_cons_of_mem _ (hsegments j (by omega))

theorem declaresIn_symbols (h : Form.ofGraph lookup g = .ok f) {b : Block} (hb : b ∈ f.blocks) :
    b.DeclaresIn g.method (Placed.symbols b.declarations) := by
  intro slot hslot
  obtain ⟨p, hp, hslot⟩ := List.mem_filterMap.1 hslot
  obtain ⟨v, -, offset, s, -, hst⟩ := declares_of_ofGraph h hb hp
  rw [hst] at hslot
  obtain rfl : v.slot = slot := Option.some.inj hslot
  refine List.mem_filterMap.2 ⟨p, hp, ?_⟩
  rw [hst]
  exact congrArg some (g.method.variableSymbol_eq v)

section

variable {p : Program} {exceptionBase : Option TypeRef} {passed : List BlockId} {D : List String}

/-- What a block asserts is scoped where a path has reached it. -/
theorem Reached.scoped_block (hl : p.Encodes exceptionBase lookup)
    (ht : ∀ t ∈ g.mentionedTypes, ∃ s, Sentence.encode exceptionBase p t = .ok s)
    (hfew : (Lowering.mk g.method lookup).FewFaults g) (h : Form.ofGraph lookup g = .ok f)
    {b : Block} (hb : b ∈ f.blocks) (hr : Reached g f passed b.id)
    (hD : ∀ b' ∈ f.blocks, b'.id ∈ b.id :: passed → b'.DeclaresIn g.method D) :
    b.Scoped (p.Provides exceptionBase) D := by
  cases hid : b.id.index with
  | entry =>
      obtain ⟨entry, preds, hentry, rfl⟩ := entry_of_ofGraph h hb hid
      obtain ⟨declared, rfl, -, -⟩ := Lowering.lowerEntry_eq_ok hentry
      simp [Block.Scoped]
  | node n =>
      have htags : ∀ t ∈ g.mentionedTypes, p.Provides exceptionBase t.tag := fun t hmem =>
        Program.provides_tag (ht t hmem)
      refine scoped_of_ofGraph hl.speaks htags hfew h hb hid fun b' hb' hdeclaring => hD b' hb' ?_
      have hnode : b.id = ⟨.node n, b.id.segment⟩ := by rw [← hid]
      rw [hnode] at hr ⊢
      exact hr.mem_of_declaring hb' hdeclaring
  | _ =>
      generalize b.id = id at hr hid
      cases hr <;> contradiction

/-- Leaving a block: its statements are scoped, and its declarations are there for what comes
next. -/
theorem Reached.scopedInOrder (hl : p.Encodes exceptionBase lookup)
    (ht : ∀ t ∈ g.mentionedTypes, ∃ s, Sentence.encode exceptionBase p t = .ok s)
    (hfew : (Lowering.mk g.method lookup).FewFaults g) (h : Form.ofGraph lookup g = .ok f)
    {id : BlockId} {b : Block} (hb : f.block? id = some b) (hr : Reached g f passed id)
    (hD : ∀ b' ∈ f.blocks, b'.id ∈ passed → b'.DeclaresIn g.method D) (condition : Condition) :
    Placed.ScopedInOrder (p.Provides exceptionBase) f.Declares D
        (b.declarations ++ b.assertions ++ b.guards condition) ∧
      ∀ b' ∈ f.blocks, b'.id ∈ id :: passed → b'.DeclaresIn g.method
        (D ++ Placed.symbols (b.declarations ++ b.assertions ++ b.guards condition)) := by
  obtain ⟨hmem, rfl⟩ := of_block?_eq_some hb
  have hdeclared : ∀ b' ∈ f.blocks, b'.id ∈ b.id :: passed →
      b'.DeclaresIn g.method (D ++ Placed.symbols b.declarations) := by
    intro b' hb' hpassed slot hslot
    rw [List.mem_append]
    rcases List.mem_cons.1 hpassed with hid | hpassed
    · obtain rfl := List.inj_on_of_nodup_map (nodup_ids_of_ofGraph h) hb' hmem hid
      exact Or.inr (declaresIn_symbols h hb' slot hslot)
    · exact Or.inl (hD b' hb' hpassed slot hslot)
  constructor
  · rw [List.append_assoc]
    refine .append (.of_declares fun q hq => ⟨b, hmem, hq⟩) (.of_scoped fun st hst => ?_)
    refine hr.scoped_block hl ht hfew h hmem hdeclared st ?_
    rw [List.append_assoc]
    rcases List.mem_append.1 hst with hst | hst
    · exact List.mem_append_left _ hst
    · exact List.mem_append_right _ (guards_subset b condition hst)
  · intro b' hb' hpassed slot hslot
    have hmem := hdeclared b' hb' hpassed slot hslot
    simp only [Placed.symbols, List.filterMap_append, ← List.append_assoc] at hmem ⊢
    exact List.mem_append_left _ (List.mem_append_left _ hmem)

/-- **Scope along a path**: if no segment is replaced, a path that goes on from a block declares
every constant before it uses it. -/
theorem scopedInOrder_of_trail (hl : p.Encodes exceptionBase lookup)
    (ht : ∀ t ∈ g.mentionedTypes, ∃ s, Sentence.encode exceptionBase p t = .ok s)
    (hfew : (Lowering.mk g.method lookup).FewFaults g) (h : Form.ofGraph lookup g = .ok f)
    {onPath : List BlockIndex} {id : BlockId} {steps : List PathStep} {exit : ExitKind}
    (htrail : Trail f onPath id steps exit) (hr : Reached g f passed id)
    (hD : ∀ b ∈ f.blocks, b.id ∈ passed → b.DeclaresIn g.method D) :
    Placed.ScopedInOrder (p.Provides exceptionBase) f.Declares D
      (steps.flatMap (Reference.stepStatements f)) := by
  induction htrail generalizing passed D with
  | @leave onPath id b k e exit hb he hturn =>
      obtain ⟨hstep, -⟩ := hr.scopedInOrder hl ht hfew h hb hD e.condition
      simpa [Reference.stepStatements, hb, he] using hstep
  | @go onPath onPath' id b k e steps exit hb he hturn rest ih =>
      obtain ⟨hstep, hdeclared⟩ := hr.scopedInOrder hl ht hfew h hb hD e.condition
      have hnext : Reached g f (id :: passed) e.target := by
        refine hr.follow hfew h hb (List.mem_of_getElem? he) ?_ ?_
        · rintro htarget
          simp [turn, htarget, BlockId.regularExit] at hturn
        · rintro htarget
          simp [turn, htarget, BlockId.exceptionalExit] at hturn
      have heq : Reference.stepStatements f ⟨id, k⟩ =
          b.declarations ++ b.assertions ++ b.guards e.condition := by
        simp [Reference.stepStatements, hb, he]
      rw [List.flatMap_cons, heq]
      exact hstep.append (ih hnext hdeclared)

end

end Form

end Pathwise
