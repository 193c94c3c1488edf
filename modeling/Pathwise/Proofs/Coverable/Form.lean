import Pathwise.Proofs.Effects
import Pathwise.Proofs.Encoding
import Pathwise.Proofs.PostOrder
import Pathwise.Proofs.Scoping.Form

/-!
# Pathwise.Proofs.Coverable.Form

What the paths of a form ask for, and that the form of a graph is fit for it
(`Form.prepared_of_ofGraph`): every edge leads to a block, every method that a
statement runs is noted at the statement, and what a statement allocates is a
reference whose sentence the encoding has looked up.
-/

namespace Pathwise

/-! ## references -/

namespace Sentence

/-- A sentence of references for a type whose values are references, and only for such a one. -/
def Fits (s : Sentence) (t : TypeRef) : Prop := s.isReference = true ↔ t.IsReference

/-- Sentences fit their types. -/
theorem fits_of_encode {exceptionBase : Option TypeRef} {p : Program} {t : TypeRef} {s : Sentence}
    (h : encode exceptionBase p t = .ok s) : s.Fits t := by
  obtain ⟨rfl, hs⟩ := encoded_of_encode h
  exact hs.isReference_iff

variable {s : Sentence}

/-- Every reference has a pointer. -/
theorem exists_hasPointer (h : s.isReference = true) (a : Sexp) (pointer : Nat) :
    ∃ term, s.apply (.hasPointer a pointer) = .ok term := by
  unfold isReference at h
  unfold apply
  cases hs : s.shape with
  | bool => simp [hs] at h
  | int => simp [hs] at h
  | real => simp [hs] at h
  | _ => exact ⟨_, rfl⟩

end Sentence

/-! ## statements -/

/-- A statement that notes the method it runs, and allocates only references of known types. -/
structure Statement.Backed (known : TypeRef → Prop) (s : Statement) : Prop where
  callee : ∀ m ∈ s.effect.callee?, m ∈ s.methods
  allocated : ∀ t ∈ s.effect.allocated?, t.IsReference ∧ known t

namespace Statement.Backed

variable {known known' : TypeRef → Prop} {s : Statement}

theorem mono (h : s.Backed known) (hk : ∀ t, known t → known' t) : s.Backed known' where
  callee := h.callee
  allocated t ht := (h.allocated t ht).imp_right (hk t)

theorem of_none (h : s.effect = .none) : s.Backed known where
  callee m hm := by simp [h, Effect.callee?] at hm
  allocated t ht := by simp [h, Effect.allocated?] at ht

theorem inGroup (h : s.Backed known) (group : Nat) : (s.inGroup group).Backed known :=
  ⟨h.callee, h.allocated⟩

end Statement.Backed

/-! ## instructions -/

namespace Lowering

open MethodGraph (Instruction)

variable {c : Lowering} {i : Instruction} {known : TypeRef → Prop}

/-- **Instructions**: a call is noted, and what is allocated has a sentence of references. -/
theorem backed_lower (hl : ∀ t s, c.lookup t = .ok s → s.Fits t) {l : Lowered}
    (h : c.lower i = .ok l) :
    ∀ s ∈ l.statements, s.Backed fun t => ∃ x, c.lookup t = .ok x := by
  intro st hst
  have hemits := emits_lower h st hst
  refine ⟨fun m hm => ?_, fun t ht => ?_⟩
  · rwa [hemits.methods, Option.mem_toList]
  · obtain ⟨s, hs, href⟩ := hemits.performs.allocated t ht
    exact ⟨(hl t s hs).1 href, s, hs⟩

theorem Declares.backed {vs : List Variable} {p : Placed} (h : c.Declares vs p) :
    p.statement.Backed known := by
  obtain ⟨v, -, offset, s, -, hst⟩ := h
  exact .of_none (by rw [hst]; rfl)

end Lowering

/-! ## forms -/

theorem MethodGraph.mem_order_zero {g : MethodGraph} (h : g.defect? = none) : 0 ∈ g.order := by
  have hpos := size_pos_of_valid h
  rw [order_eq_reversePostOrder hpos]
  exact Digraph.mem_reversePostOrder_of_mem g.bounded_digraph (by simpa using hpos) (by simp)

/-- Successors are in the order. -/
theorem MethodGraph.mem_order_of_edge {g : MethodGraph} (h : g.defect? = none) {n m : Nat}
    (hn : n ∈ g.order) (hnm : (n, m) ∈ g.digraph.edges) : m ∈ g.order := by
  have hpos := size_pos_of_valid h
  rw [order_eq_reversePostOrder hpos] at hn ⊢
  exact Digraph.mem_reversePostOrder_of_edge g.bounded_digraph (by simpa using hpos) hn hnm

namespace Lowering

/-- Every listed block of a valid graph has a first segment. -/
theorem exists_node {c : Lowering} {g : MethodGraph} (hvalid : g.defect? = none) {entry : Block}
    {parameters : List Form.Parameter} (hentry : c.lowerEntry = .ok (entry, parameters))
    {cuts : List (Nat × List Nat)} {written : List (List Block)}
    (hw : c.lowerBlocks g cuts g.order [[entry]] = .ok written) {n : Nat} (hn : n ∈ g.order)
    (hsize : n < g.blocks.length) : ∃ b ∈ written.flatMap latest, b.id = .node n := by
  obtain ⟨before, segments, hlaid⟩ := laid_lowerBlocks hvalid hw g.nodup_order
    (Form.fresh_entry hentry _) hn (List.getElem?_eq_getElem hsize)
  have hindex := Form.index_eq_of_valid hvalid (List.getElem?_eq_getElem hsize)
  have hpos : 0 < segments.length := by
    rw [length_lowerBlock hlaid.lowered]
    omega
  have hfirst := List.getElem?_eq_getElem hpos
  obtain ⟨b, hb, hid⟩ := exists_mem_latest hlaid.lowered (List.mem_of_getElem? hfirst)
  refine ⟨b, List.mem_flatMap.2 ⟨segments, hlaid.subset ?_, hb⟩, ?_⟩
  · exact List.mem_append_right _ (List.mem_singleton_self _)
  · rw [hid, id_of_getElem?_lowerBlock hlaid.lowered hfirst, hindex]
    rfl

/-- The edges of the encoded blocks lead to encoded blocks or to an exit. -/
theorem exists_target {c : Lowering} {g : MethodGraph} (hvalid : g.defect? = none) {entry : Block}
    {parameters : List Form.Parameter} (hentry : c.lowerEntry = .ok (entry, parameters))
    {cuts : List (Nat × List Nat)} {written : List (List Block)}
    (hw : c.lowerBlocks g cuts g.order [[entry]] = .ok written) {b : Block}
    (hb : b ∈ written.flatMap latest ++ [{ id := .regularExit }, { id := .exceptionalExit }])
    {e : Edge} (he : e ∈ b.successors) :
    ∃ b' ∈ written.flatMap latest ++ [{ id := .regularExit }, { id := .exceptionalExit }],
      b'.id = e.target := by
  have hnode : ∀ n ∈ g.order, n < g.blocks.length →
      ∃ b' ∈ written.flatMap latest ++ [{ id := .regularExit }, { id := .exceptionalExit }],
        b'.id = .node n := by
    intro n hn hsize
    obtain ⟨b', hb', hid⟩ := exists_node hvalid hentry hw hn hsize
    exact ⟨b', List.mem_append_left _ hb', hid⟩
  rcases List.mem_append.1 hb with hb | hb
  · obtain ⟨segments, hsegments, hb⟩ := List.mem_flatMap.1 hb
    have hb := latest_subset segments hb
    obtain hmem | ⟨n, hn, source, visible, hsource, hs⟩ := mem_lowerBlocks hw hsegments
    · obtain rfl := List.mem_singleton.1 hmem
      obtain rfl := List.mem_singleton.1 hb
      obtain ⟨declared, rfl, -, -⟩ := lowerEntry_eq_ok hentry
      rw [List.mem_singleton.1 he]
      exact hnode 0 (MethodGraph.mem_order_zero hvalid) (MethodGraph.size_pos_of_valid hvalid)
    · obtain hexit | hexit | ⟨k, next, -, hnext, htarget⟩ | ⟨⟨m, hm, htarget⟩, -⟩ :=
        edge_lowerBlock hs hb he
      · exact ⟨_, List.mem_append_right _ List.mem_cons_self, hexit.symm⟩
      · exact ⟨_, List.mem_append_right _ (List.mem_cons_of_mem _ List.mem_cons_self), hexit.symm⟩
      · obtain ⟨b', hb', hid⟩ := exists_mem_latest hs (List.mem_of_getElem? hnext)
        exact ⟨b', List.mem_append_left _ (List.mem_flatMap.2 ⟨segments, hsegments, hb'⟩),
          hid.trans htarget.symm⟩
      · have hedge := MethodGraph.edge_of_valid hvalid hsource hm
        obtain ⟨-, -, -, hsize⟩ := MethodGraph.mem_edges_digraph.1 hedge
        rw [htarget]
        exact hnode m (MethodGraph.mem_order_of_edge hvalid hn hedge) hsize
  · simp only [List.mem_cons, List.not_mem_nil, or_false] at hb
    rcases hb with rfl | rfl <;> contradiction

end Lowering

namespace Form

/-- A form with an entry whose edges lead to blocks. -/
structure Walkable (f : Form) : Prop where
  entry : ∃ b ∈ f.blocks, b.id = .entry
  edges : ∀ b ∈ f.blocks, ∀ e ∈ b.successors, ∃ b' ∈ f.blocks, b'.id = e.target

/-- A form whose paths can be followed. What it allocates is one of some types, or is referred to
by the form itself. -/
structure Prepared (known : TypeRef → Prop) (f : Form) : Prop where
  walkable : f.Walkable
  backed : ∀ p ∈ f.statements, p.statement.Backed fun t => t ∈ f.referencedTypes ∨ known t

variable {lookup : SentenceLookup} {g : MethodGraph} {f : Form}

/-- **No edge leads nowhere.** -/
theorem walkable_of_ofGraph (h : Form.ofGraph lookup g = .ok f) : f.Walkable := by
  obtain ⟨hvalid, entry, parameters, written, hentry, hw, rfl⟩ := ofGraph_eq_ok h
  refine ⟨?_, fun b hb e he => ?_⟩
  · obtain ⟨declared, hid, -, -⟩ := Lowering.lowerEntry_eq_ok hentry
    have hmem : entry ∈ written.flatMap Lowering.latest :=
      List.mem_flatMap.2 ⟨[entry], Lowering.subset_lowerBlocks hw List.mem_cons_self, by simp⟩
    exact ⟨_, List.mem_map_of_mem (List.mem_append_left _ hmem), by rw [hid]⟩
  · obtain ⟨bare, hbare, rfl⟩ := List.mem_map.1 hb
    obtain ⟨b', hb', hid⟩ := Lowering.exists_target hvalid hentry hw hbare he
    exact ⟨_, List.mem_map_of_mem hb', hid⟩

theorem walkable_empty (m : MethodRef) : (Form.empty m).Walkable := by
  constructor
  · exact ⟨_, List.mem_cons_self, rfl⟩
  · intro b hb e he
    simp only [Form.empty, List.mem_cons, List.not_mem_nil, or_false] at hb
    obtain rfl | rfl := hb
    · rw [List.mem_singleton.1 he]
      exact ⟨_, List.mem_cons_of_mem _ List.mem_cons_self, rfl⟩
    · contradiction

/-- More known types keep forms prepared. -/
theorem Prepared.mono {known known' : TypeRef → Prop} (h : f.Prepared known)
    (hk : ∀ t, known t → known' t) : f.Prepared known' where
  walkable := h.walkable
  backed p hp := (h.backed p hp).mono fun t => Or.imp_right (hk t)

theorem prepared_empty (known : TypeRef → Prop) (m : MethodRef) :
    (Form.empty m).Prepared known where
  walkable := walkable_empty m
  backed p hp := by simp [Form.statements, Form.empty, Block.statements] at hp

/-- **Forms of graphs are prepared**, for the types that the encoding could look up. -/
theorem prepared_of_ofGraph (hl : ∀ t s, lookup t = .ok s → s.Fits t)
    (h : Form.ofGraph lookup g = .ok f) : f.Prepared fun t => ∃ x, lookup t = .ok x where
  walkable := walkable_of_ofGraph h
  backed p hp := by
    have hbacked := forall_statements_of_ofGraph (fun st k hst => hst.inGroup k)
      (fun p hp => hp.backed) (fun b _ i _ => ⟨fun p hp => hp.backed,
        fun l hl' => Lowering.backed_lower hl hl'⟩) h p hp
    exact hbacked.mono fun t => Or.inr

end Form

end Pathwise
