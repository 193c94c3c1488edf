import Mathlib.Data.Finset.Card
import Mathlib.Data.List.Nodup
import Pathwise.Digraph

/-!
# Pathwise.Proofs.Search

Depth-first search. One relation says what a search adds to what was there
before, `Search.Extends`: it forgets nothing, and what it finishes is new, each
node once. With enough fuel a search is also complete: all successors of the
nodes that it met have been met (`Search.Covers`).

Hence no node stands twice in a reverse post-order (`nodup_reversePostOrder`),
and the nodes reachable from a start are closed under edges
(`mem_reachable_of_edge`).
-/

namespace Pathwise.Digraph

variable {g : Digraph}

theorem mem_successors {n m : Nat} : m ∈ g.successors n ↔ (n, m) ∈ g.edges := by
  simp [successors]

/-! ## what a search adds -/

namespace Search

/-- The second search goes on from the first. -/
structure Extends (s t : Search) : Prop where
  seen : s.seen ⊆ t.seen
  finished : ∃ new, t.finished = new ++ s.finished ∧ new.Nodup ∧ ∀ x ∈ new, x ∈ t.seen ∧ x ∉ s.seen

theorem Extends.refl (s : Search) : s.Extends s where
  seen := List.Subset.refl _
  finished := ⟨[], by simp⟩

theorem Extends.trans {s t u : Search} (h : s.Extends t) (h' : t.Extends u) : s.Extends u where
  seen := List.Subset.trans h.seen h'.seen
  finished := by
    obtain ⟨new, heq, hnodup, hnew⟩ := h.finished
    obtain ⟨new', heq', hnodup', hnew'⟩ := h'.finished
    refine ⟨new' ++ new, by rw [heq', heq, List.append_assoc], ?_, ?_⟩
    · refine hnodup'.append hnodup fun x hx' hx => ?_
      exact (hnew' x hx').2 (hnew x hx).1
    · intro x hx
      rw [List.mem_append] at hx
      cases hx with
      | inl hx => exact ⟨(hnew' x hx).1, fun hs => (hnew' x hx).2 (h.seen hs)⟩
      | inr hx => exact ⟨h'.seen (hnew x hx).1, (hnew x hx).2⟩

theorem Extends.foldl {visit : Search → Nat → Search} (h : ∀ s n, Extends s (visit s n))
    (ns : List Nat) (s : Search) : s.Extends (ns.foldl visit s) := by
  induction ns generalizing s with
  | nil => exact .refl s
  | cons n ns ih => exact (h s n).trans (ih _)

end Search

/-- Meeting a node: its successors are searched, then it is finished. -/
theorem visit_succ (g : Digraph) (fuel : Nat) (s : Search) (n : Nat) :
    n ∈ s.seen ∧ g.visit (fuel + 1) s n = s ∨
    n ∉ s.seen ∧ ∃ inner : Search,
      inner = (g.successors n).foldl (g.visit fuel) { s with seen := n :: s.seen } ∧
      g.visit (fuel + 1) s n = { inner with finished := n :: inner.finished } := by
  by_cases hn : n ∈ s.seen
  · exact Or.inl ⟨hn, by simp [visit, hn]⟩
  · exact Or.inr ⟨hn, _, rfl, by simp [visit, hn]⟩

theorem extends_visit (g : Digraph) (fuel : Nat) (s : Search) (n : Nat) :
    s.Extends (g.visit fuel s n) := by
  induction fuel generalizing s n with
  | zero => exact .refl s
  | succ fuel ih =>
      obtain ⟨-, heq⟩ | ⟨hn, inner, hinner, heq⟩ := g.visit_succ fuel s n
      · rw [heq]
        exact .refl s
      · have hext := Search.Extends.foldl ih (g.successors n) { s with seen := n :: s.seen }
        rw [← hinner] at hext
        obtain ⟨new, hfinished, hnodup, hnew⟩ := hext.finished
        have hmem : n ∈ inner.seen := hext.seen List.mem_cons_self
        rw [heq]
        refine ⟨fun x hx => hext.seen (List.mem_cons_of_mem n hx), n :: new, ?_, ?_, ?_⟩
        · exact congrArg (n :: ·) hfinished
        · exact List.nodup_cons.2 ⟨fun hx => (hnew n hx).2 List.mem_cons_self, hnodup⟩
        · rw [List.forall_mem_cons]
          refine ⟨⟨hmem, hn⟩, fun x hx => ?_⟩
          exact ⟨(hnew x hx).1, fun hs => (hnew x hx).2 (List.mem_cons_of_mem n hs)⟩

theorem extends_search (g : Digraph) (starts : List Nat) : Search.Extends {} (g.search starts) :=
  .foldl (g.extends_visit _) starts {}

/-- **No repeats**: a reverse post-order lists each node once. -/
theorem nodup_reversePostOrder (g : Digraph) (starts : List Nat) :
    (g.reversePostOrder starts).Nodup := by
  obtain ⟨new, hfinished, hnodup, -⟩ := (g.extends_search starts).finished
  have heq : g.reversePostOrder starts = new := hfinished.trans (List.append_nil new)
  rw [heq]
  exact hnodup

/-! ## completeness -/

/-- Every edge leads to a node. -/
def Bounded (g : Digraph) : Prop := ∀ n m, (n, m) ∈ g.edges → m < g.size

/-- The number of nodes that a search has not met. -/
def unseen (g : Digraph) (s : Search) : Nat := (Finset.range g.size \ s.seen.toFinset).card

theorem unseen_mono {s t : Search} (h : s.seen ⊆ t.seen) : g.unseen t ≤ g.unseen s := by
  refine Finset.card_le_card (Finset.sdiff_subset_sdiff (Finset.Subset.refl _) ?_)
  intro x hx
  rw [List.mem_toFinset] at hx ⊢
  exact h hx

theorem unseen_cons {s : Search} {n : Nat} (hn : n ∉ s.seen) (hsize : n < g.size) :
    g.unseen { s with seen := n :: s.seen } < g.unseen s := by
  refine Finset.card_lt_card (Finset.ssubset_iff_of_subset ?_ |>.2 ⟨n, ?_, ?_⟩)
  · exact Finset.sdiff_subset_sdiff (Finset.Subset.refl _) (by simp)
  · simp [hn, hsize]
  · simp

/-- All successors of the nodes that the second search met anew have been met. -/
def Search.Covers (g : Digraph) (s t : Search) : Prop :=
  ∀ x ∈ t.seen, x ∉ s.seen → ∀ y ∈ g.successors x, y ∈ t.seen

theorem Search.Covers.trans {s t u : Search} (h : Covers g s t) (h' : Covers g t u)
    (htu : t.seen ⊆ u.seen) : Covers g s u := by
  intro x hx hs y hy
  by_cases ht : x ∈ t.seen
  · exact htu (h x ht hs y hy)
  · exact h' x hx ht y hy

theorem covers_foldl {fuel : Nat}
    (hvisit : ∀ s n, g.unseen s < fuel → n < g.size →
      n ∈ (g.visit fuel s n).seen ∧ Search.Covers g s (g.visit fuel s n))
    {ns : List Nat} (hns : ∀ n ∈ ns, n < g.size) {s : Search} (hs : g.unseen s < fuel) :
    (∀ n ∈ ns, n ∈ (ns.foldl (g.visit fuel) s).seen) ∧
      Search.Covers g s (ns.foldl (g.visit fuel) s) := by
  induction ns generalizing s with
  | nil => exact ⟨by simp, fun x hx hs => absurd hx hs⟩
  | cons n ns ih =>
      rw [List.forall_mem_cons] at hns
      have hext := g.extends_visit fuel s n
      have hrest := Search.Extends.foldl (g.extends_visit fuel) ns (g.visit fuel s n)
      obtain ⟨hn, hcovers⟩ := hvisit s n hs hns.1
      obtain ⟨hmem, hcovers'⟩ := ih hns.2 ((unseen_mono hext.seen).trans_lt hs)
      rw [List.foldl_cons, List.forall_mem_cons]
      exact ⟨⟨hrest.seen hn, hmem⟩, hcovers.trans hcovers' hrest.seen⟩

/-- With more fuel than there are nodes left, a search meets everything behind a node. -/
theorem covers_visit (hg : g.Bounded) {fuel : Nat} {s : Search} {n : Nat}
    (hfuel : g.unseen s < fuel) (hn : n < g.size) :
    n ∈ (g.visit fuel s n).seen ∧ Search.Covers g s (g.visit fuel s n) := by
  induction fuel generalizing s n with
  | zero => omega
  | succ fuel ih =>
      obtain ⟨hseen, heq⟩ | ⟨hseen, inner, hinner, heq⟩ := g.visit_succ fuel s n
      · rw [heq]
        exact ⟨hseen, fun x hx hs => absurd hx hs⟩
      · have hless := unseen_cons hseen hn
        have hsucc : ∀ m ∈ g.successors n, m < g.size :=
          fun m hm => hg n m (mem_successors.1 hm)
        obtain ⟨hmem, hcovers⟩ := covers_foldl (fun s n => ih) hsucc
          (s := { s with seen := n :: s.seen }) (by omega)
        have hext := Search.Extends.foldl (g.extends_visit fuel) (g.successors n)
          { s with seen := n :: s.seen }
        rw [← hinner] at hmem hcovers hext
        rw [heq]
        refine ⟨hext.seen List.mem_cons_self, fun x hx hs y hy => ?_⟩
        by_cases hxn : x = n
        · subst hxn
          exact hmem y hy
        · exact hcovers x hx (by simp [hxn, hs]) y hy

theorem unseen_empty (g : Digraph) : g.unseen {} = g.size := by simp [unseen]

theorem mem_reachable_self (hg : g.Bounded) {start : Nat} (h : start < g.size) :
    start ∈ g.reachable start :=
  (covers_visit hg (by rw [unseen_empty]; omega) h).1

/-- **Closedness**: an edge of a reachable node leads to a reachable node. -/
theorem mem_reachable_of_edge (hg : g.Bounded) {start : Nat} (h : start < g.size) {n m : Nat}
    (hn : n ∈ g.reachable start) (hedge : (n, m) ∈ g.edges) : m ∈ g.reachable start :=
  (covers_visit hg (by rw [unseen_empty]; omega) h).2 n hn (by simp) m (mem_successors.2 hedge)

theorem Bounded.without (hg : g.Bounded) (d : Nat) : (g.without d).Bounded := by
  intro n m h
  exact hg n m (List.mem_filter.1 h).1

theorem mem_edges_without {d n m : Nat} :
    (n, m) ∈ (g.without d).edges ↔ (n, m) ∈ g.edges ∧ n ≠ d ∧ m ≠ d := by
  simp [without]

/-- A dominator cuts off what it dominates. -/
theorem of_mem_dominatorChain {start n d : Nat} (h : d ∈ g.dominatorChain start n) :
    d ≠ n ∧ n ∉ (g.without d).reachable start := by
  simp only [dominatorChain, chainOf, cuts, List.mem_reverse, List.mem_filterMap, List.mem_map] at h
  obtain ⟨-, ⟨d', -, rfl⟩, hd⟩ := h
  split at hd
  · next hcut =>
      obtain rfl := Option.some.inj hd
      exact hcut
  · contradiction

/-- A chain lists nodes against the order of the search. -/
theorem dominatorChain_sublist (g : Digraph) (start n : Nat) :
    (g.dominatorChain start n).Sublist (g.reversePostOrder [start]).reverse := by
  have hchain : g.dominatorChain start n = ((g.reversePostOrder [start]).filter fun d =>
      d ≠ n ∧ n ∉ (g.without d).reachable start).reverse := by
    rw [dominatorChain, chainOf, cuts, List.filterMap_map, ← List.filterMap_eq_filter]
    congr 2
    funext d
    simp [Option.guard]
  rw [hchain]
  exact List.filter_sublist.reverse

end Pathwise.Digraph
