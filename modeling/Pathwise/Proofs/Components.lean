import Mathlib.Data.List.Perm.Basic
import Pathwise.Proofs.PostOrder

/-!
# Pathwise.Proofs.Components

Strongly connected components. The nodes of a graph are partitioned into them
(`partitions_components`), and `orderedComponents` lists them all
(`perm_orderedComponents`) in an order in which no edge points back
(`pairwise_orderedComponents`).

The components are collected in the order in which a search of the flipped graph
finished, last first. What has been collected is closed under edges, so a node
behind the next one that is not collected yet leads back to it, by
`Digraph.reaches_back`.
-/

namespace Pathwise.Digraph

variable {g : Digraph} {s t : Search} {x n : Nat}

/-! ## components -/

/-- Each of two nodes leads to the other. -/
def Connected (g : Digraph) (x y : Nat) : Prop := g.Reaches x y ∧ g.Reaches y x

theorem Connected.symm {x y : Nat} (h : g.Connected x y) : g.Connected y x := ⟨h.2, h.1⟩

theorem Connected.trans {x y z : Nat} (h : g.Connected x y) (h' : g.Connected y z) :
    g.Connected x z :=
  ⟨h.1.trans h'.1, h'.2.trans h.2⟩

/-- The nodes that are connected with one of them. -/
def IsComponent (g : Digraph) (C : List Nat) : Prop := ∃ n ∈ C, ∀ x, x ∈ C ↔ g.Connected n x

theorem IsComponent.mem_iff {C : List Nat} (h : g.IsComponent C) (hx : x ∈ C) {y : Nat} :
    y ∈ C ↔ g.Connected x y := by
  obtain ⟨n, -, hn⟩ := h
  have hnx := (hn x).1 hx
  constructor
  · intro hy
    exact hnx.symm.trans ((hn y).1 hy)
  · intro hxy
    exact (hn y).2 (hnx.trans hxy)

/-- Components that hold every node outside a set exactly once. -/
structure Partitions (g : Digraph) (S : Set Nat) (cs : List (List Nat)) : Prop where
  component : ∀ C ∈ cs, g.IsComponent C
  mem : ∀ x, x ∈ cs.flatten ↔ x < g.size ∧ x ∉ S
  nodup : cs.flatten.Nodup

namespace Partitions

variable {S T : Set Nat} {C : List Nat} {cs : List (List Nat)}

theorem cons (h : g.Partitions T cs) (hC : g.IsComponent C) (hnodup : C.Nodup)
    (hout : ∀ x ∈ C, x < g.size ∧ x ∉ S) (hT : ∀ x, x ∈ T ↔ x ∈ S ∨ x ∈ C) :
    g.Partitions S (C :: cs) where
  component := List.forall_mem_cons.2 ⟨hC, h.component⟩
  mem x := by
    have hx := hout x
    rw [List.flatten_cons, List.mem_append, h.mem, hT]
    tauto
  nodup := by
    rw [List.flatten_cons]
    refine hnodup.append h.nodup fun x hx hcs => ?_
    exact ((h.mem x).1 hcs).2 ((hT x).2 (Or.inr hx))

end Partitions

/-! ## collecting them -/

/-- A search has met everything behind the nodes it has met. -/
def Search.Closed (g : Digraph) (s : Search) : Prop :=
  ∀ x ∈ s.seen, ∀ y, (x, y) ∈ g.edges → y ∈ s.seen

theorem Search.Closed.mem_of_reaches {s : Search} (hs : s.Closed g) {x y : Nat} (hx : x ∈ s.seen)
    (hxy : g.Reaches x y) : y ∈ s.seen := by
  induction hxy with
  | refl => exact hx
  | tail _ hbc ih => exact hs _ ih _ hbc

theorem Search.Closed.completes (hs : s.Closed g) {starts new : List Nat}
    (h : Search.Completes g starts s t new) : t.Closed g := by
  intro x hx y hxy
  rw [h.seen] at hx ⊢
  cases hx with
  | inl hx => exact Or.inl (hs x hx y hxy)
  | inr hx => exact h.visits.mem_of_edge hx hxy

/-- A search from one node meets what lies behind it. -/
theorem Search.Completes.reaches {new : List Nat} (h : Search.Completes g [n] s t new)
    (hx : x ∈ new) : g.Reaches n x := by
  obtain ⟨m, hm, -, hleads⟩ := h.visits.exists_leads hx
  rw [List.mem_singleton.1 hm] at hleads
  exact leads_empty.1 (hleads.mono (Set.empty_subset _))

theorem Search.Completes.mem_filter_iff {new : List Nat} (h : Search.Completes g [n] s t new)
    (hg : g.Bounded) (hn : n < g.size) :
    x ∈ (List.range g.size).filter (fun m => m ∈ t.seen ∧ m ∉ s.seen) ↔ x ∈ new := by
  have hbound : x ∈ new → x < g.size := fun hx => (h.reaches hx).lt_size hg hn
  have hfresh : x ∈ new → x ∉ s.seen := fun hx => h.visits.not_mem hx
  rw [List.mem_filter, List.mem_range, decide_eq_true_eq, h.seen]
  tauto

/-- What a search meets behind the next node to collect is the component of that node. -/
theorem mem_new_iff_connected (hg : g.Bounded) (hflip : g.flip.Bounded) {done order new : List Nat}
    (hsplit : g.flip.reversePostOrder (List.range g.size) = done ++ n :: order)
    (hdone : ∀ z ∈ done, z ∈ s.seen) (hs : s.Closed g) (hn : n ∉ s.seen)
    (h : Search.Completes g [n] s t new) : x ∈ new ↔ g.Connected n x := by
  have hsize : n < g.size := (mem_reversePostOrder_range hflip).1 (hsplit ▸ by simp)
  constructor
  · intro hx
    have hnx := h.reaches hx
    -- no node collected earlier leads to `x`, so `n` is the first in the order that does
    have hfront : ∀ z ∈ done, ¬g.flip.Reaches x z := by
      intro z hz hxz
      exact h.visits.not_mem hx (hs.mem_of_reaches (hdone z hz) (reaches_flip.1 hxz))
    have hback := reaches_back hflip hsplit (hnx.lt_size hg hsize) (reaches_flip.2 hnx) hfront
    exact ⟨hnx, reaches_flip.1 hback⟩
  · rintro ⟨hnx, hxn⟩
    have hmet : n ∈ t.seen := by
      rw [h.seen]
      exact h.visits.mem_of_mem_starts List.mem_cons_self
    cases (h.seen x).1 ((hs.completes h).mem_of_reaches hmet hnx) with
    | inl hx => exact absurd (hs.mem_of_reaches hx hxn) hn
    | inr hx => exact hx

theorem partitions_collect (hg : g.Bounded) (hflip : g.flip.Bounded) {done order : List Nat}
    {s : Search} (hsplit : g.flip.reversePostOrder (List.range g.size) = done ++ order)
    (hdone : ∀ z ∈ done, z ∈ s.seen) (hs : s.Closed g) :
    g.Partitions {x | x ∈ s.seen} (g.collect order s) := by
  induction order generalizing done s with
  | nil =>
      refine ⟨fun C hC => by contradiction, fun x => ?_, List.nodup_nil⟩
      constructor
      · intro hx
        contradiction
      · rintro ⟨hx, hout⟩
        rw [List.append_nil] at hsplit
        exact absurd (hdone x (hsplit ▸ (mem_reversePostOrder_range hflip).2 hx)) hout
  | cons n order ih =>
      have hnext : g.flip.reversePostOrder (List.range g.size) = (done ++ [n]) ++ order := by
        rw [hsplit, List.append_assoc, List.singleton_append]
      unfold collect
      split
      · next hn =>
          refine ih hnext (fun z hz => ?_) hs
          cases List.mem_append.1 hz with
          | inl hz => exact hdone z hz
          | inr hz => exact List.mem_singleton.1 hz ▸ hn
      · next hn =>
          have hsize : n < g.size := (mem_reversePostOrder_range hflip).1 (hsplit ▸ by simp)
          have hfuel : g.unseen s < g.size + 1 := by
            have hempty := unseen_mono (g := g) (s := {}) (t := s) (List.nil_subset _)
            rw [unseen_empty] at hempty
            omega
          obtain ⟨new, hnew⟩ := completes_visit hg hfuel hsize
          have hconnected {x : Nat} :=
            mem_new_iff_connected (x := x) hg hflip hsplit hdone hs hn hnew
          have hmem {x : Nat} := hnew.mem_filter_iff hg hsize (x := x)
          have hmet : n ∈ new := hconnected.2 ⟨.refl, .refl⟩
          refine (ih hnext (fun z hz => ?_) (hs.completes hnew)).cons
            ⟨n, hmem.2 hmet, fun x => hmem.trans hconnected⟩ (List.nodup_range.filter _)
            (fun x hx => ?_) fun x => ?_
          · cases List.mem_append.1 hz with
            | inl hz => exact (hnew.seen z).2 (Or.inl (hdone z hz))
            | inr hz => exact (hnew.seen z).2 (Or.inr (List.mem_singleton.1 hz ▸ hmet))
          · have hx := hmem.1 hx
            exact ⟨(hnew.reaches hx).lt_size hg hsize, hnew.visits.not_mem hx⟩
          · rw [hmem]
            exact hnew.seen x

/-- **Components partition the nodes.** -/
theorem partitions_components (hg : g.Bounded) (hflip : g.flip.Bounded) :
    g.Partitions ∅ g.components := by
  have hnone : {x | x ∈ ({} : Search).seen} = (∅ : Set Nat) := by simp
  unfold components
  rw [← hnone]
  exact partitions_collect hg hflip (List.nil_append _).symm (by simp) fun x hx => by contradiction

/-! ## the graph of the components -/

namespace Partitions

variable {cs : List (List Nat)} (hcs : g.Partitions ∅ cs) {A B : Nat}

include hcs

theorem componentOf_eq {k : Nat} {C : List Nat} (hC : cs[k]? = some C) {x : Nat} (hx : x ∈ C) :
    componentOf cs x = k := by
  obtain ⟨hk, rfl⟩ := List.getElem?_eq_some_iff.1 hC
  have hdisjoint := List.pairwise_iff_getElem.1 (List.nodup_flatten.1 hcs.nodup).2
  refine (List.findIdx_eq hk).2 ⟨by simpa using hx, fun j hj => ?_⟩
  have hout : x ∉ cs[j] := fun hmem => hdisjoint j k (by omega) hk hj hmem hx
  simpa using hout

theorem exists_component {x : Nat} (hx : x < g.size) :
    ∃ C, cs[componentOf cs x]? = some C ∧ x ∈ C := by
  obtain ⟨C, hC, hxC⟩ := List.mem_flatten.1 ((hcs.mem x).2 ⟨hx, by simp⟩)
  obtain ⟨k, hk⟩ := List.getElem?_of_mem hC
  rw [hcs.componentOf_eq hk hxC]
  exact ⟨C, hk, hxC⟩

omit hcs in
theorem mem_edges_condensed : (A, B) ∈ (g.condensed cs).edges ↔
    A ≠ B ∧ ∃ a b, (a, b) ∈ g.edges ∧ componentOf cs a = A ∧ componentOf cs b = B := by
  simp only [condensed, List.mem_eraseDups, List.mem_filter, List.mem_map, Prod.exists,
    Prod.mk.injEq,
    decide_eq_true_eq]
  tauto

theorem bounded_condensed (hg : g.Bounded) : (g.condensed cs).Bounded := by
  intro A B hAB
  obtain ⟨-, a, b, hab, -, rfl⟩ := mem_edges_condensed.1 hAB
  obtain ⟨C, hC, -⟩ := hcs.exists_component (hg a b hab)
  exact (List.getElem?_eq_some_iff.1 hC).1

/-- A path through components is a path through their nodes. -/
theorem reaches_of_condensed (hg : g.Bounded) (hflip : g.flip.Bounded)
    (h : (g.condensed cs).Reaches A B) {C D : List Nat} (hC : cs[A]? = some C)
    (hD : cs[B]? = some D) {a b : Nat} (ha : a ∈ C) (hb : b ∈ D) : g.Reaches a b := by
  induction h generalizing D b with
  | refl =>
      obtain rfl := Option.some.inj (hC.symm.trans hD)
      exact ((hcs.component C (List.mem_of_getElem? hC)).mem_iff ha).1 hb |>.1
  | tail _ hedge ih =>
      obtain ⟨-, x, y, hxy, rfl, rfl⟩ := mem_edges_condensed.1 hedge
      have hx : x < g.size := hflip y x (by simpa [flip] using hxy)
      obtain ⟨X, hX, hxX⟩ := hcs.exists_component hx
      obtain ⟨Y, hY, hyY⟩ := hcs.exists_component (hg x y hxy)
      obtain rfl := Option.some.inj (hY.symm.trans hD)
      have hyb := ((hcs.component Y (List.mem_of_getElem? hY)).mem_iff hyY).1 hb
      exact ((ih hX hxX).tail hxy).trans hyb.1

/-- The graph of the components has no cycles. -/
theorem acyclic_condensed (hg : g.Bounded) (hflip : g.flip.Bounded)
    (hAB : (g.condensed cs).Reaches A B) (hBA : (g.condensed cs).Reaches B A) : A = B := by
  -- two different nodes are both targets of edges, so there are components for them
  by_contra hne
  have htarget : ∀ {X Y}, X ≠ Y → (g.condensed cs).Reaches X Y →
      ∃ C x, cs[Y]? = some C ∧ x ∈ C := by
    intro X Y hXY hreach
    obtain rfl | ⟨Z, -, hedge⟩ := hreach.cases_tail
    · contradiction
    · obtain ⟨-, x, y, hxy, -, rfl⟩ := mem_edges_condensed.1 hedge
      obtain ⟨C, hC, hy⟩ := hcs.exists_component (hg x y hxy)
      exact ⟨C, y, hC, hy⟩
  obtain ⟨D, b, hD, hb⟩ := htarget hne hAB
  obtain ⟨C, a, hC, ha⟩ := htarget (Ne.symm hne) hBA
  have hconnected : g.Connected a b :=
    ⟨hcs.reaches_of_condensed hg hflip hAB hC hD ha hb,
      hcs.reaches_of_condensed hg hflip hBA hD hC hb ha⟩
  have hmem : b ∈ C := ((hcs.component C (List.mem_of_getElem? hC)).mem_iff ha).2 hconnected
  exact hne ((hcs.componentOf_eq hC hmem).symm.trans (hcs.componentOf_eq hD hb))

end Partitions

/-! ## their order -/

theorem filterMap_range_getElem? {α : Type} (l : List α) :
    (List.range l.length).filterMap (l[·]?) = l := by
  induction l with
  | nil => rfl
  | cons a l ih =>
      rw [List.length_cons, List.range_succ_eq_map, List.filterMap_cons, List.filterMap_map]
      exact congrArg (a :: ·) ih

theorem perm_orderedComponents (hg : g.Bounded) (hflip : g.flip.Bounded) :
    g.orderedComponents.Perm g.components := by
  have hcs := partitions_components hg hflip
  have hperm : ((g.condensed g.components).reversePostOrder
      (List.range g.components.length)).Perm (List.range g.components.length) := by
    refine (List.perm_ext_iff_of_nodup (nodup_reversePostOrder _ _) List.nodup_range).2 fun n => ?_
    rw [List.mem_range]
    exact mem_reversePostOrder_range (hcs.bounded_condensed hg)
  have h := hperm.filterMap (g.components[·]?)
  rwa [filterMap_range_getElem?] at h

theorem partitions_orderedComponents (hg : g.Bounded) (hflip : g.flip.Bounded) :
    g.Partitions ∅ g.orderedComponents := by
  have hperm := perm_orderedComponents hg hflip
  have hcs := partitions_components hg hflip
  refine ⟨fun C hC => hcs.component C (hperm.mem_iff.1 hC), fun x => ?_, ?_⟩
  · rw [hperm.flatten.mem_iff]
    exact hcs.mem x
  · exact hperm.flatten.nodup_iff.2 hcs.nodup

/-- **No edge points back** in the order of the components. -/
theorem pairwise_orderedComponents (hg : g.Bounded) (hflip : g.flip.Bounded) :
    g.orderedComponents.Pairwise fun C D => ∀ x ∈ C, ∀ y ∈ D, (y, x) ∉ g.edges := by
  have hcs := partitions_components hg hflip
  have hforward := pairwise_reversePostOrder (hcs.bounded_condensed hg) fun A B =>
    hcs.acyclic_condensed hg hflip
  unfold orderedComponents
  refine List.pairwise_filterMap.2 (hforward.imp ?_)
  intro A B hback C hC D hD x hx y hy hyx
  rw [← hcs.componentOf_eq hC hx, ← hcs.componentOf_eq hD hy] at hback
  by_cases heq : componentOf g.components y = componentOf g.components x
  · exact hback (heq ▸ .refl)
  · exact hback (.single (Partitions.mem_edges_condensed.2 ⟨heq, y, x, hyx, rfl, rfl⟩))

end Pathwise.Digraph
