import Pathwise.Proofs.Exclusion
import Pathwise.Proofs.Segmentation.Form

/-!
# Pathwise.Proofs.Partition

The edges of a block part the interpretations: each enables exactly one of them
(`Form.existsUnique_enables`). That two edges are never enabled together is
`Guards.Family.pairwise`; here the guards of a block are shown to leave nothing out
(`Interpretation.exists_holds_of_family`), for every shape that they can have.

So the outcomes of an instruction that can fault, and the two sides of a branch,
exclude each other and are all there are.
-/

namespace Pathwise

open Guards (Family)
open MethodGraph (Instruction)

namespace Interpretation

variable {I : Interpretation}

/-- All guards of a condition hold in a block. -/
def Enables (I : Interpretation) (b : Block) (condition : Condition) : Prop :=
  ∀ p ∈ b.guards condition, ∀ e ∈ p.statement.terms, I.Holds e

theorem enables_iff {b : Block} {condition : Condition} :
    I.Enables b condition ↔ ∀ e ∈ b.guardTerms condition, I.Holds e := by
  simp only [Enables, Block.guardTerms, List.mem_flatMap]
  constructor
  · rintro h e ⟨p, hp, he⟩
    exact h p hp e he
  · exact fun h p hp e he => h e ⟨p, hp, he⟩

/-! ## guards leave nothing out -/

theorem holds_or_holds_of_contrary {a b : Sexp} (h : Sexp.Contrary a b) :
    I.Holds a ∨ I.Holds b := by
  obtain rfl | rfl := h
  · rw [holds_not]
    exact Classical.em _
  · rw [holds_not, or_comm]
    exact Classical.em _

/-- Behind checks that do not occur, none of the others occurs, or one is the first to occur. -/
theorem exists_holds_of_checks {checks : List FaultCheck}
    (h : ∀ check ∈ checks, Sexp.Contrary check.occurs check.absent) {front : List Sexp}
    (hfront : ∀ e ∈ front, I.Holds e) :
    (∀ e ∈ front ++ checks.map (·.absent), I.Holds e) ∨
      ∃ terms ∈ Guards.faultTerms front checks, ∀ e ∈ terms, I.Holds e := by
  induction checks generalizing front with
  | nil => exact Or.inl (by simpa using hfront)
  | cons check checks ih =>
      rw [List.forall_mem_cons] at h
      rw [Guards.faultTerms, List.exists_mem_cons_iff]
      cases holds_or_holds_of_contrary h.1 with
      | inl hoccurs =>
          refine Or.inr (Or.inl ?_)
          exact List.forall_mem_append.2 ⟨hfront, List.forall_mem_singleton.2 hoccurs⟩
      | inr habsent =>
          have hfront' : ∀ e ∈ front ++ [check.absent], I.Holds e :=
            List.forall_mem_append.2 ⟨hfront, List.forall_mem_singleton.2 habsent⟩
          refine (ih h.2 hfront').imp (fun hall => ?_) Or.inr
          rwa [List.append_assoc] at hall

/-- **Guards leave nothing out**: under every interpretation the guards of some edge hold. -/
theorem exists_holds_of_family {guards : List (List Sexp)} (h : Family guards) :
    ∃ terms ∈ guards, ∀ e ∈ terms, I.Holds e := by
  cases h with
  | always => exact ⟨[], List.mem_singleton_self _, List.forall_mem_nil _⟩
  | @branch taken notTaken h =>
      obtain htaken | hnot := holds_or_holds_of_contrary (I := I) h
      · exact ⟨[taken], by simp, by simpa using htaken⟩
      · exact ⟨[notTaken], by simp, by simpa using hnot⟩
  | checks h =>
      rw [List.exists_mem_cons_iff]
      exact exists_holds_of_checks h (List.forall_mem_nil _)
  | @element isNull notNull h zero index length =>
      simp only [List.exists_mem_cons_iff, List.forall_mem_cons, List.not_mem_nil, false_implies,
        implies_true, and_true, Sexp.inBounds, holds_and, holds_not, holds_le, holds_lt, holds_ge]
      obtain hnull | hnot := holds_or_holds_of_contrary (I := I) h
      · exact Or.inr (Or.inl hnull)
      · by_cases hlow : I.number (I.eval index) < I.number (I.eval zero)
        · exact Or.inr (Or.inr (Or.inl ⟨hnot, hlow⟩))
        · by_cases hhigh : I.number (I.eval length) ≤ I.number (I.eval index)
          · exact Or.inr (Or.inr (Or.inr (Or.inl ⟨hnot, hlow, hhigh⟩)))
          · exact Or.inl ⟨hnot, by omega, by omega⟩

end Interpretation

/-! ## blocks -/

theorem Block.Guarded.existsUnique_edge {b : Block} (h : b.Guarded) (hb : b.successors ≠ [])
    (I : Interpretation) :
    ∃! k : Fin b.successors.length, I.Enables b (b.successors.get k).condition := by
  have hfamily := h.family.resolve_left hb
  obtain ⟨terms, hterms, hholds⟩ := I.exists_holds_of_family hfamily
  obtain ⟨e, he, rfl⟩ := List.mem_map.1 hterms
  obtain ⟨k, rfl⟩ := List.get_of_mem he
  refine ⟨k, Interpretation.enables_iff.2 hholds, fun j hj => ?_⟩
  by_contra hne
  have hexcludes := h.excludes (List.getElem?_eq_getElem j.2) (List.getElem?_eq_getElem k.2)
    (fun heq => hne (Fin.ext heq))
  exact Interpretation.not_holds_of_excludes hexcludes (Interpretation.enables_iff.1 hj) hholds

/-- If the conditions of a block's edges are known, exactly one of them is enabled. -/
theorem Block.Guarded.existsUnique_mem {b : Block} (h : b.Guarded) {conditions : List Condition}
    (hb : b.successors.map (·.condition) = conditions) (hnil : conditions ≠ [])
    (I : Interpretation) : ∃! condition, condition ∈ conditions ∧ I.Enables b condition := by
  subst hb
  obtain ⟨k, hk, hunique⟩ := h.existsUnique_edge (by simpa using hnil) I
  refine ⟨_, ⟨List.mem_map_of_mem (List.get_mem _ k), hk⟩, ?_⟩
  rintro condition ⟨hmem, henables⟩
  obtain ⟨e, he, rfl⟩ := List.mem_map.1 hmem
  obtain ⟨j, rfl⟩ := List.get_of_mem he
  rw [hunique j henables]

theorem Block.conditions_faultEdges (id : BlockId) (offset : Nat) (kinds : List FaultKind) :
    (faultEdges id offset kinds).map (·.condition) =
      (FaultGroup.outcomes offset kinds).map .fault := by
  simp [faultEdges, FaultGroup.outcomes]

namespace Lowering

variable {c : Lowering} {source : MethodGraph.Block}

/-- An instruction that can fault, among those that can. -/
theorem getElem?_filter_faults {k : Nat} {i : Instruction} (hi : source.instructions[k]? = some i)
    (hfaults : c.faults i = true) : (source.instructions.filter c.faults)[
      c.segmentOf source.instructions k]? = some i := by
  obtain ⟨hk, rfl⟩ := List.getElem?_eq_some_iff.1 hi
  have hsplit : source.instructions =
      source.instructions.take k ++ source.instructions[k] :: source.instructions.drop (k + 1) := by
    rw [← List.drop_eq_getElem_cons hk, List.take_append_drop]
  conv_lhs =>
    enter [1]
    rw [hsplit, List.filter_append, List.filter_cons, if_pos hfaults]
  rw [segmentOf, List.countP_eq_length_filter, List.getElem?_append_right le_rfl, Nat.sub_self,
    List.getElem?_cons_zero]

theorem successors_ne_nil {visible : List Slot} {segments : List Block}
    (h : c.lowerBlock visible source = .ok segments) {b : Block} (hb : b ∈ segments) :
    b.successors ≠ [] := by
  obtain ⟨complete, last, rfl, hcomplete, hexits⟩ := split_lowerBlock h
  rcases List.mem_append.1 hb with hb | hb
  · obtain ⟨k, hk, rfl⟩ := List.getElem_of_mem hb
    have hends := hcomplete.get (hcomplete.length_eq ▸ hk) hk
    have hedges := hends.edges
    simp only [List.get_eq_getElem] at hedges
    simp [hedges, Block.faultEdges]
  · rw [List.mem_singleton.1 hb]
    exact (leftBy_of_exits hexits).ne_nil

end Lowering

namespace Form

variable {lookup : SentenceLookup} {g : MethodGraph} {f : Form}

theorem successors_ne_nil_of_ofGraph (h : Form.ofGraph lookup g = .ok f) {b : Block}
    (hb : b ∈ f.blocks) (hregular : b.id ≠ .regularExit) (hexceptional : b.id ≠ .exceptionalExit) :
    b.successors ≠ [] := by
  obtain ⟨bare, preds, rfl, he | ⟨n, -, source, visible, segments, -, hs, hbare⟩ | rfl | rfl⟩ :=
    mem_blocks_of_ofGraph h hb
  · obtain ⟨declared, rfl, -, -⟩ := Lowering.lowerEntry_eq_ok he
    simp
  · have hne := Lowering.successors_ne_nil hs hbare
    exact hne
  · contradiction
  · contradiction

section

variable (h : Form.ofGraph lookup g = .ok f) {n : Nat} (hn : g.digraph.Reaches 0 n)
  {source : MethodGraph.Block} (hsource : g.blocks[n]? = some source)

include h hsource

/-- One of the last segments of a block is in the form. -/
theorem exists_segment {visible : List Slot} {segments : List Block}
    (hs : (Lowering.mk g.method lookup).lowerBlock visible source = .ok segments)
    {predecessors : BlockId → List BlockId} (hsegments : f.segments n =
      (Lowering.latest segments).map fun b => { b with predecessors := predecessors b.id })
    {k : Nat} (hk : k ≤ (Lowering.mk g.method lookup).faultCount source)
    (hkept : (Lowering.mk g.method lookup).faultCount source < k + 65536) :
    ∃ bare, segments[k]? = some bare ∧ bare.id = ⟨.node n, k % 65536⟩ ∧
      { bare with predecessors := predecessors bare.id } ∈ f.blocks := by
  have hlength := Lowering.length_lowerBlock hs
  obtain ⟨bare, hbare⟩ : ∃ bare, segments[k]? = some bare :=
    ⟨_, List.getElem?_eq_getElem (by omega)⟩
  refine ⟨bare, hbare, ?_, ?_⟩
  · rw [Lowering.id_of_getElem?_lowerBlock hs hbare,
      index_eq_of_valid (ofGraph_eq_ok h).1 hsource]
  · have hmem := Lowering.mem_latest_iff.2 ⟨k, hbare, by omega⟩
    have hsegment : { bare with predecessors := predecessors bare.id } ∈ f.segments n :=
      hsegments ▸ List.mem_map_of_mem hmem
    exact (List.mem_filter.1 hsegment).1

include hn

/-- An instruction that checks for faults ends its segment. -/
theorem exists_conditions_of_checked {k : Nat} {i : Instruction}
    (hi : source.instructions[k]? = some i)
    (hchecked : (Lowering.mk g.method lookup).checked i ≠ [])
    (hkept : (Lowering.mk g.method lookup).faultCount source <
      (Lowering.mk g.method lookup).segmentOf source.instructions k + 65536) :
    ∃ b ∈ f.blocks, b.id = ⟨.node n,
        (Lowering.mk g.method lookup).segmentOf source.instructions k % 65536⟩ ∧
      b.successors.map (·.condition) = (FaultGroup.outcomes i.offset
        ((Lowering.mk g.method lookup).checked i)).map .fault := by
  obtain ⟨visible, segments, hs, predecessors, hsegments⟩ := segments_of_ofGraph h hn hsource
  obtain ⟨⟨lowered, hlowered, -⟩, -⟩ := Lowering.filled_lowerBlock hs
  obtain ⟨l, hl⟩ := exists_eq_ok_of_mapM_eq_ok hlowered (List.mem_of_getElem? hi)
  have hfaults := (Lowering.faults_iff hl).2 hchecked
  obtain ⟨bare, hbare, hid, hmem⟩ :=
    exists_segment h hsource hs hsegments ((List.take_sublist k _).countP_le) hkept
  have hends :=
    Lowering.endsWith_of_lowerBlock hs (Lowering.getElem?_filter_faults hi hfaults) hbare
  refine ⟨_, hmem, hid, ?_⟩
  rw [← Block.conditions_faultEdges bare.id, ← hends.edges]

/-- A branch ends its block. -/
theorem exists_conditions_of_branch {i : Instruction} (hi : i ∈ source.instructions)
    {test : BranchTest} (hop : i.opcode = .branch test) :
    ∃ b ∈ f.blocks, b.id = ⟨.node n, (Lowering.mk g.method lookup).faultCount source % 65536⟩ ∧
      b.successors.map (·.condition) = [.taken, .notTaken] := by
  obtain ⟨visible, segments, hs, predecessors, hsegments⟩ := segments_of_ofGraph h hn hsource
  obtain ⟨bare, hbare, hid, hmem⟩ := exists_segment h hsource hs hsegments le_rfl (by omega)
  refine ⟨_, hmem, hid, ?_⟩
  obtain ⟨-, hbranches⟩ := Lowering.filled_lowerBlock hs
  have hterm : source.terminator?.map Instruction.opcode = some (.branch test) := by
    have hlast : some i = source.terminator? := by
      by_contra hne
      exact hbranches i (List.mem_dropLast_of_mem_of_ne_getLast? hi hne) test hop
    rw [← hlast, Option.map_some, hop]
  have hexits := Lowering.exits_of_lowerBlock hs hbare
  obtain ⟨taken, other, hedges⟩ := (Lowering.leftBy_of_exits hexits).of_branch hterm
  simp [hedges]

end

/-- **Edges part the interpretations**: each enables exactly one edge of a block that is no exit. In
particular it enables exactly one of the outcomes of an instruction that checks for faults, if the
segment that it ends is kept, and exactly one side of a branch. -/
theorem existsUnique_enables (h : Form.ofGraph lookup g = .ok f) (I : Interpretation) :
    (∀ b ∈ f.blocks, b.id ≠ .regularExit → b.id ≠ .exceptionalExit →
      ∃! k : Fin b.successors.length, I.Enables b (b.successors.get k).condition) ∧
    ∀ n source, g.digraph.Reaches 0 n → g.blocks[n]? = some source →
      ∀ (k : Nat) (i : Instruction), source.instructions[k]? = some i →
        ((Lowering.mk g.method lookup).checked i ≠ [] →
          (Lowering.mk g.method lookup).faultCount source <
            (Lowering.mk g.method lookup).segmentOf source.instructions k + 65536 →
          ∃ b ∈ f.blocks, b.id = ⟨.node n,
              (Lowering.mk g.method lookup).segmentOf source.instructions k % 65536⟩ ∧
            ∃! condition, condition ∈ (FaultGroup.outcomes i.offset
              ((Lowering.mk g.method lookup).checked i)).map .fault ∧ I.Enables b condition) ∧
        ∀ test, i.opcode = .branch test → ∃ b ∈ f.blocks,
          b.id = ⟨.node n, (Lowering.mk g.method lookup).faultCount source % 65536⟩ ∧
          ∃! condition, condition ∈ [.taken, .notTaken] ∧ I.Enables b condition := by
  have hguarded := guarded_of_ofGraph h
  refine ⟨fun b hb hregular hexceptional => ?_, fun n source hn hsource k i hi => ⟨?_, ?_⟩⟩
  · exact (hguarded b hb).existsUnique_edge
      (successors_ne_nil_of_ofGraph h hb hregular hexceptional) I
  · intro hchecked hkept
    obtain ⟨b, hb, hid, hconditions⟩ :=
      exists_conditions_of_checked h hn hsource hi hchecked hkept
    exact ⟨b, hb, hid,
      (hguarded b hb).existsUnique_mem hconditions (by simp [FaultGroup.outcomes]) I⟩
  · intro test hop
    obtain ⟨b, hb, hid, hconditions⟩ :=
      exists_conditions_of_branch h hn hsource (List.mem_of_getElem? hi) hop
    exact ⟨b, hb, hid, (hguarded b hb).existsUnique_mem hconditions (by simp) I⟩

end Form

/-- An element access: in bounds, without an array, below and above the bounds. -/
theorem Sample.Scan.existsUnique_enables_access : ∃ b ∈ form.blocks, b.id = ⟨.node 2, 0⟩ ∧
    ∃! condition, condition ∈ [.fault ⟨0, none, 5⟩, .fault ⟨1, some .nullReference, 5⟩,
        .fault ⟨2, some .indexBelowRange, 5⟩, .fault ⟨3, some .indexAboveRange, 5⟩] ∧
      reading.Enables b condition :=
  ((Form.existsUnique_enables form_eq reading).2 2 _ reaches_two rfl 0 _ rfl).1 (by decide)
    (by decide +kernel)

end Pathwise
