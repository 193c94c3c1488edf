import Pathwise.Proofs.Dominance
import Pathwise.Proofs.Scoping.Form
import Pathwise.Proofs.Traversal

/-!
# Pathwise.Proofs.BlockOrder

The order of the blocks of a method graph and their dominators, said by the ways
through the graph. Blocks are known by their position, and a successor that is no
block is not followed; nothing else is asked of a graph.

* `order_lists_dominators_first`: the order lists the blocks that ways lead to,
  each once and behind all blocks that every way to it passes;
* `dominators_list_strict_dominators`: the dominators of a block are exactly these
  blocks, the nearest one first, as one finds them by going from a block to its
  immediate dominator again and again (`Ascends`).
-/

namespace Pathwise

namespace MethodGraph

/-! ## ways -/

/-- A way from the entry to a block: the blocks it passes, the last one first. -/
inductive Way (g : MethodGraph) : (passed : List Nat) → (last : Nat) → Prop where
  | entry (h : 0 < g.blocks.length) : Way g [0] 0
  | follow {passed : List Nat} {n m : Nat} {b : Block} (h : Way g passed n)
      (hb : g.blocks[n]? = some b) (hm : m ∈ b.successors) (hsize : m < g.blocks.length) :
      Way g (m :: passed) m

/-- Some way leads to a block. -/
def Reached (g : MethodGraph) (b : Nat) : Prop := ∃ passed, g.Way passed b

/-- Every way to a block, and there is one, passes another block. -/
structure StrictlyDominates (g : MethodGraph) (d b : Nat) : Prop where
  reached : g.Reached b
  ne : d ≠ b
  passed : ∀ passed, g.Way passed b → d ∈ passed

/-- The nearest strict dominator: the others dominate it. -/
structure ImmediatelyDominates (g : MethodGraph) (d b : Nat) : Prop where
  strict : g.StrictlyDominates d b
  nearest : ∀ e, g.StrictlyDominates e b → e = d ∨ g.StrictlyDominates e d

/-- Going from a block to its immediate dominator, and on from there until there is none. -/
inductive Ascends (g : MethodGraph) : Nat → List Nat → Prop where
  | top {b : Nat} (h : ∀ d, ¬g.ImmediatelyDominates d b) : Ascends g b []
  | climb {b d : Nat} {chain : List Nat} (h : g.ImmediatelyDominates d b)
      (rest : Ascends g d chain) : Ascends g b (d :: chain)

variable {g : MethodGraph}

theorem way_iff_route {passed : List Nat} {n : Nat} :
    g.Way passed n ↔ 0 < g.blocks.length ∧ g.digraph.Route 0 passed n := by
  constructor
  · intro h
    induction h with
    | entry h => exact ⟨h, .start⟩
    | follow _ hb hm hsize ih =>
        exact ⟨ih.1, ih.2.follow (mem_edges_digraph.2 ⟨_, hb, hm, hsize⟩)⟩
  · rintro ⟨hpos, h⟩
    induction h with
    | start => exact .entry hpos
    | follow _ hedge ih =>
        obtain ⟨b, hb, hm, hsize⟩ := mem_edges_digraph.1 hedge
        exact .follow ih hb hm hsize

theorem reached_iff {b : Nat} :
    g.Reached b ↔ 0 < g.blocks.length ∧ g.digraph.Reaches 0 b := by
  simp only [Reached, way_iff_route, Digraph.reaches_iff_route, exists_and_left]

theorem mem_order_iff_reached {b : Nat} : b ∈ g.order ↔ g.Reached b := by
  rw [reached_iff, order]
  split
  · next hnil => simp [hnil]
  · next hne =>
      have hpos := List.length_pos_iff.2 hne
      rw [Digraph.mem_reversePostOrder_iff g.bounded_digraph hpos]
      exact (and_iff_right hpos).symm

theorem strictlyDominates_iff (hpos : 0 < g.blocks.length) {d b : Nat} :
    g.StrictlyDominates d b ↔ g.digraph.StrictlyDominates 0 d b := by
  have hway : ∀ passed, g.Way passed b ↔ g.digraph.Route 0 passed b := fun passed =>
    way_iff_route.trans (and_iff_right hpos)
  have hreached : g.Reached b ↔ g.digraph.Reaches 0 b := reached_iff.trans (and_iff_right hpos)
  constructor
  · intro h
    exact ⟨hreached.1 h.reached, h.ne, fun passed hp => h.passed passed ((hway passed).2 hp)⟩
  · intro h
    exact ⟨hreached.2 h.reaches, h.ne, fun passed hp => h.dominates passed ((hway passed).1 hp)⟩

theorem mem_dominatorChain_iff_strictlyDominates {b d : Nat} (hb : g.Reached b) :
    d ∈ g.digraph.dominatorChain 0 b ↔ g.StrictlyDominates d b := by
  obtain ⟨hpos, hreaches⟩ := reached_iff.1 hb
  rw [strictlyDominates_iff hpos]
  exact Digraph.mem_dominatorChain_iff g.bounded_digraph hpos hreaches

/-! ## the order -/

/-- **Dominators come first**: the order lists the blocks that ways from the entry lead to, each
once, the entry first, and a block behind all other blocks that every way to it passes. It is the
order in which a depth-first search with a stack finishes the blocks, read backwards. -/
theorem order_lists_dominators_first (g : MethodGraph) :
    (∀ b, b ∈ g.order ↔ g.Reached b) ∧
    g.order.Nodup ∧
    (0 < g.blocks.length → g.order.head? = some 0 ∧
      ∃ met, Digraph.Traversal.Runs g.digraph { stack := [0] }
        { stack := [], met, finished := g.order }) ∧
    ∀ d b, g.Reached b → d ≠ b → (∀ passed, g.Way passed b → d ∈ passed) →
      g.order.idxOf d < g.order.idxOf b := by
  refine ⟨fun b => mem_order_iff_reached, g.nodup_order, fun hpos => ?_, fun d b hb hne hd => ?_⟩
  · rw [order_eq_reversePostOrder hpos]
    exact ⟨Digraph.head?_reversePostOrder g.bounded_digraph hpos,
      Digraph.runs_reversePostOrder g.bounded_digraph hpos⟩
  · have hpos := (reached_iff.1 hb).1
    have hdom := (strictlyDominates_iff hpos).1 ⟨hb, hne, hd⟩
    obtain ⟨front, back, hsplit⟩ := List.append_of_mem (mem_order_iff_reached.2 hb)
    have hfront : d ∈ front := Digraph.mem_front_of_dominates g.bounded_digraph hpos
      ((order_eq_reversePostOrder hpos).symm.trans hsplit) hdom.dominates hdom.ne
    have hnot : b ∉ front := fun hmem =>
      (List.nodup_append.1 (hsplit ▸ g.nodup_order)).2.2 b hmem b List.mem_cons_self rfl
    rw [hsplit, List.idxOf_append_of_mem hfront, List.idxOf_append_of_notMem hnot]
    exact Nat.lt_of_lt_of_le (List.idxOf_lt_length_iff.2 hfront) (Nat.le_add_right _ _)

end MethodGraph

namespace Sample.Tangle

/-- A loop that is entered in two places. The block behind it has a wrong number, one edge leads to
no block, and the last block cannot be reached. -/
def graph : MethodGraph :=
  { method := .static (.named "Sample" "Loops" []) "Tangle" [] .void
    blocks := [
      { index := 0, instructions := [], successors := [1, 2] },
      { index := 1, instructions := [], successors := [2] },
      { index := 2, instructions := [], successors := [1, 3, 9] },
      { index := 7, instructions := [], successors := [] },
      { index := 4, instructions := [], successors := [3] } ] }

theorem order_behind : graph.order = [0, 1, 2, 3] ∧ graph.order.idxOf 2 < graph.order.idxOf 3 := by
  have hreached : graph.Reached 3 := MethodGraph.mem_order_iff_reached.1 (by decide)
  have hdom : graph.StrictlyDominates 2 3 :=
    (MethodGraph.mem_dominatorChain_iff_strictlyDominates hreached).1 (by decide)
  exact ⟨by decide, (MethodGraph.order_lists_dominators_first graph).2.2.2 2 3 hreached hdom.ne
    hdom.passed⟩

end Sample.Tangle

namespace MethodGraph

variable {g : MethodGraph}

/-! ## dominators -/

theorem mem_dominators_iff {b : Nat} {chain : List Nat} :
    (b, chain) ∈ g.dominators ↔ g.Reached b ∧ chain = g.digraph.dominatorChain 0 b := by
  rw [← mem_order_iff_reached, dominators]
  split
  · next hnil => simp [order, hnil]
  · next hne =>
      have hpos := List.length_pos_iff.2 hne
      have hlt : b ∈ g.order → b < g.blocks.length := fun hb =>
        (reached_iff.1 (mem_order_iff_reached.1 hb)).2.lt_size g.bounded_digraph hpos
      have hclimb : ∀ {b}, b ∈ g.order →
          Digraph.climb (g.digraph.cuts 0) g.blocks.length b = g.digraph.dominatorChain 0 b :=
        fun hb => Digraph.climb_eq_dominatorChain g.bounded_digraph hpos
          (reached_iff.1 (mem_order_iff_reached.1 hb)).2
          (Digraph.length_dominatorChain_le g.bounded_digraph hpos _)
      simp only [List.mem_map, List.mem_filter, List.mem_range, decide_eq_true_eq, Prod.mk.injEq]
      constructor
      · rintro ⟨b, ⟨-, hb⟩, rfl, rfl⟩
        exact ⟨hb, hclimb hb⟩
      · rintro ⟨hb, rfl⟩
        exact ⟨b, ⟨hlt hb, hb⟩, rfl, hclimb hb⟩

/-- Blocks are listed by ascending number. -/
theorem pairwise_dominators (g : MethodGraph) : (g.dominators.map (·.1)).Pairwise (· < ·) := by
  unfold dominators
  split
  · exact .nil
  · rw [List.map_map]
    exact (List.pairwise_lt_range.filter (· ∈ g.order)).map _ fun _ _ => id

/-- A list of all strict dominators, each dominated by those behind it, is found by going from one
immediate dominator to the next. -/
theorem ascends_of_pairwise (hpos : 0 < g.blocks.length) {b : Nat} {chain : List Nat}
    (hchain : ∀ d, d ∈ chain ↔ g.StrictlyDominates d b)
    (horder : chain.Pairwise fun d e => g.StrictlyDominates e d) : g.Ascends b chain := by
  induction chain generalizing b with
  | nil => exact .top fun d hd => absurd ((hchain d).2 hd.strict) List.not_mem_nil
  | cons d chain ih =>
      obtain ⟨hd, hrest⟩ := List.pairwise_cons.1 horder
      have hdb : g.StrictlyDominates d b := (hchain d).1 List.mem_cons_self
      refine .climb ⟨hdb, fun e he => ?_⟩ (ih (fun e => ⟨hd e, fun he => ?_⟩) hrest)
      · exact (List.mem_cons.1 ((hchain e).2 he)).imp_right (hd e)
      · -- what dominates the nearest dominator dominates the block
        have heb : g.StrictlyDominates e b := (strictlyDominates_iff hpos).2
          (.trans g.bounded_digraph hpos ((strictlyDominates_iff hpos).1 he)
            ((strictlyDominates_iff hpos).1 hdb))
        exact (List.mem_cons.1 ((hchain e).2 heb)).resolve_left he.ne

/-- **Dominators are exact**: there is one entry for each block that ways from the entry lead to,
and it lists, without repeats, the other blocks that every way to it passes. Each of them is
strictly dominated by all that come after it, so the nearest one is first and the entry last, and
the list is that of the immediate dominators met on the way up. -/
theorem dominators_list_strict_dominators (g : MethodGraph) :
    (∀ b, b ∈ g.dominators.map (·.1) ↔ g.Reached b) ∧
    (g.dominators.map (·.1)).Pairwise (· < ·) ∧
    ∀ b chain, (b, chain) ∈ g.dominators →
      chain.Nodup ∧
      (∀ d, d ∈ chain ↔ d ≠ b ∧ ∀ passed, g.Way passed b → d ∈ passed) ∧
      chain.Pairwise (fun d e => g.StrictlyDominates e d) ∧
      (b ≠ 0 → chain.getLast? = some 0) ∧
      g.Ascends b chain := by
  refine ⟨fun b => ?_, g.pairwise_dominators, fun b chain h => ?_⟩
  · simp [mem_dominators_iff]
  · obtain ⟨hb, rfl⟩ := mem_dominators_iff.1 h
    obtain ⟨hpos, hreaches⟩ := reached_iff.1 hb
    have hmem : ∀ d, d ∈ g.digraph.dominatorChain 0 b ↔ g.StrictlyDominates d b := fun d =>
      mem_dominatorChain_iff_strictlyDominates hb
    have horder : (g.digraph.dominatorChain 0 b).Pairwise fun d e => g.StrictlyDominates e d :=
      (Digraph.pairwise_dominatorChain g.bounded_digraph hpos hreaches).imp
        (strictlyDominates_iff hpos).2
    refine ⟨g.digraph.nodup_dominatorChain 0 b, fun d => ?_, horder, fun hne => ?_,
      ascends_of_pairwise hpos hmem horder⟩
    · exact (hmem d).trans ⟨fun hd => ⟨hd.ne, hd.passed⟩, fun hd => ⟨hb, hd.1, hd.2⟩⟩
    · exact Digraph.getLast?_dominatorChain g.bounded_digraph hpos hreaches hne

end MethodGraph

theorem Sample.Tangle.dominators_behind :
    graph.dominators = [(0, []), (1, [0]), (2, [0]), (3, [2, 0])] ∧ graph.Ascends 3 [2, 0] ∧
      graph.StrictlyDominates 0 2 := by
  have h : graph.dominators = [(0, []), (1, [0]), (2, [0]), (3, [2, 0])] := by decide
  obtain ⟨-, -, hexact⟩ := MethodGraph.dominators_list_strict_dominators graph
  obtain ⟨-, -, hpairwise, -, hascends⟩ := hexact 3 [2, 0] (by simp [h])
  exact ⟨h, hascends, (List.pairwise_cons.1 hpairwise).1 0 (by simp)⟩

end Pathwise
