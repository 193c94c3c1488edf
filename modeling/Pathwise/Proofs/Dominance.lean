import Pathwise.Proofs.PostOrder

/-!
# Pathwise.Proofs.Dominance

Dominators: a node dominates another one if every route to it passes the node
(`Digraph.Dominates`). Of two dominators of a node one dominates the other
(`Dominates.comparable`), so they form a chain.

A graph without the edges of a node shows what the node dominates, and
`dominatorChain` lists exactly the strict dominators (`mem_dominatorChain_iff`). In
a reverse post-order they all stand before the node (`mem_front_of_dominates`): the
search has met a node along a route whose nodes it finishes later. Hence the chain
starts with the nearest of them (`pairwise_dominatorChain`) and ends with the start
(`getLast?_dominatorChain`). Behind the nearest dominator the chain goes on as that of the
dominator itself (`dominatorChain_of_cons`), so `climb`, which knows only immediate
dominators, finds it again (`climb_eq_dominatorChain`).
-/

namespace Pathwise.Digraph

open Relation (ReflTransGen)

variable {g : Digraph} {start : Nat}

/-! ## routes -/

/-- A route along edges: the nodes it passes, the last one first, and where it ends. -/
inductive Route (g : Digraph) (start : Nat) : (passed : List Nat) → (last : Nat) → Prop where
  | start : Route g start [start] start
  | follow {passed : List Nat} {n m : Nat} (h : Route g start passed n) (hnm : (n, m) ∈ g.edges) :
      Route g start (m :: passed) m

namespace Route

variable {passed : List Nat} {n m x : Nat}

/-- A route passes its end. -/
theorem last_mem (h : g.Route start passed n) : n ∈ passed := by
  cases h with
  | start => exact List.mem_cons_self
  | follow _ _ => exact List.mem_cons_self

/-- A route passes its start. -/
theorem start_mem (h : g.Route start passed n) : start ∈ passed := by
  induction h with
  | start => exact List.mem_cons_self
  | follow _ _ ih => exact List.mem_cons_of_mem _ ih

/-- A route can also be extended at its start. -/
theorem precede (h : g.Route m passed n) {k : Nat} (hkm : (k, m) ∈ g.edges) :
    g.Route k (passed ++ [k]) n := by
  induction h with
  | start => exact .follow .start hkm
  | follow _ hnm ih => exact .follow ih hnm

/-- What a route passes is reached. -/
theorem reaches_of_mem (h : g.Route start passed n) (hx : x ∈ passed) :
    g.Reaches start x := by
  induction h generalizing x with
  | start => exact List.mem_singleton.1 hx ▸ .refl
  | follow h hnm ih =>
      cases List.mem_cons.1 hx with
      | inl heq => exact heq ▸ (ih h.last_mem).tail hnm
      | inr hx => exact ih hx

/-- A route up to a node on its way. -/
theorem exists_of_mem (h : g.Route start passed n) (hx : x ∈ passed) :
    ∃ front back, passed = front ++ x :: back ∧ g.Route start (x :: back) x := by
  induction h with
  | start =>
      obtain rfl := List.mem_singleton.1 hx
      exact ⟨[], [], rfl, .start⟩
  | @follow passed n m h hnm ih =>
      cases List.mem_cons.1 hx with
      | inl heq =>
          subst heq
          exact ⟨[], passed, rfl, .follow h hnm⟩
      | inr hx =>
          obtain ⟨front, back, rfl, hroute⟩ := ih hx
          exact ⟨m :: front, back, rfl, hroute⟩

/-- From a node on its way a route can be continued as it is after another route to that node. -/
theorem reroute {front back back' : List Nat} (h : g.Route start (front ++ x :: back) n)
    (h' : g.Route start back' x) :
    g.Route start (front ++ back') n := by
  induction front generalizing n with
  | nil =>
      cases h with
      | start => exact h'
      | follow _ _ => exact h'
  | cons y front ih =>
      generalize hpassed : y :: front ++ x :: back = passed at h
      cases h with
      | start => simp at hpassed
      | follow h hnm =>
          obtain ⟨rfl, rfl⟩ := List.cons.inj hpassed
          exact .follow (ih h) hnm

end Route

/-- To be reached is to have a route. -/
theorem reaches_iff_route {n : Nat} : g.Reaches start n ↔ ∃ passed, g.Route start passed n := by
  constructor
  · intro h
    induction h with
    | refl => exact ⟨_, .start⟩
    | tail _ hbc ih =>
        obtain ⟨passed, hroute⟩ := ih
        exact ⟨_, hroute.follow hbc⟩
  · rintro ⟨passed, hroute⟩
    exact hroute.reaches_of_mem hroute.last_mem

/-! ## dominators -/

/-- Every route from the start to `n` passes `d`. -/
def Dominates (g : Digraph) (start d n : Nat) : Prop :=
  ∀ passed, g.Route start passed n → d ∈ passed

/-- A dominator other than the node itself, which is reachable. -/
structure StrictlyDominates (g : Digraph) (start d n : Nat) : Prop where
  reaches : g.Reaches start n
  ne : d ≠ n
  dominates : g.Dominates start d n

theorem Dominates.refl (g : Digraph) (start n : Nat) : g.Dominates start n n :=
  fun _ hroute => hroute.last_mem

/-- Dominators of dominators dominate. -/
theorem Dominates.trans {d e n : Nat} (hd : g.Dominates start d e) (he : g.Dominates start e n) :
    g.Dominates start d n := by
  intro passed hroute
  obtain ⟨front, back, rfl, hsub⟩ := hroute.exists_of_mem (he passed hroute)
  exact List.mem_append_right front (hd _ hsub)

/-- Dominators of what is reached are reached. -/
theorem Dominates.reaches {d n : Nat} (h : g.Dominates start d n) (hn : g.Reaches start n) :
    g.Reaches start d := by
  obtain ⟨passed, hroute⟩ := reaches_iff_route.1 hn
  exact hroute.reaches_of_mem (h passed hroute)

/-- **Dominators form a chain**: of two dominators of a reachable node one dominates the other. -/
theorem Dominates.comparable {d e n : Nat} (hd : g.Dominates start d n)
    (he : g.Dominates start e n) (hn : g.Reaches start n) :
    g.Dominates start d e ∨ g.Dominates start e d := by
  by_contra hneither
  simp only [Dominates, not_or, not_forall] at hneither
  obtain ⟨⟨toE, hrouteE, hdE⟩, toD, hrouteD, heD⟩ := hneither
  obtain ⟨passed, hroute⟩ := reaches_iff_route.1 hn
  -- the one of the two that the route passes last can be reached without the other
  obtain ⟨front, x, back, rfl, hx, hfront⟩ :=
    exists_first (P := fun x => x = d ∨ x = e) (hd passed hroute) (Or.inl rfl)
  have hdFront : d ∉ front := fun hmem => hfront d hmem (Or.inl rfl)
  have heFront : e ∉ front := fun hmem => hfront e hmem (Or.inr rfl)
  cases hx with
  | inl hxd =>
      subst hxd
      have hmem := he _ (hroute.reroute hrouteD)
      exact (List.mem_append.1 hmem).elim heFront heD
  | inr hxe =>
      subst hxe
      have hmem := hd _ (hroute.reroute hrouteE)
      exact (List.mem_append.1 hmem).elim hdFront hdE

/-! ## the order of a search -/

/-- A node is met along a route whose other nodes are all finished after it. -/
theorem Visits.exists_route {starts finished : List Nat} {S : Set Nat}
    (h : g.Visits starts S finished) {front back : List Nat} {x : Nat}
    (hsplit : finished = front ++ x :: back) :
    ∃ n ∈ starts, ∃ passed, g.Route n passed x ∧ ∀ y ∈ passed, y = x ∨ y ∈ front := by
  induction h generalizing front back with
  | nil S => simp at hsplit
  | skip _ _ ih =>
      obtain ⟨n, hn, hroute⟩ := ih hsplit
      exact ⟨n, List.mem_cons_of_mem _ hn, hroute⟩
  | @visit n starts inner finished S _ within rest ihWithin ihRest =>
      have hroot : x = n → ∃ m ∈ n :: starts, ∃ passed, g.Route m passed x ∧
          ∀ y ∈ passed, y = x ∨ y ∈ front := by
        rintro rfl
        exact ⟨x, List.mem_cons_self, [x], .start, by simp⟩
      obtain ⟨later, hlater, hinner⟩ | ⟨later, hlater, hback⟩ := List.append_eq_append_iff.1 hsplit
      · cases later with
        | nil => exact hroot (List.cons.inj hinner).1.symm
        | cons m later =>
            obtain ⟨rfl, htail⟩ := List.cons.inj hinner
            obtain ⟨m, hm, passed, hroute, hpassed⟩ := ihWithin htail
            refine ⟨n, List.mem_cons_self, _, hroute.precede (mem_successors.1 hm), ?_⟩
            intro y hy
            rw [hlater]
            cases List.mem_append.1 hy with
            | inl hy => exact (hpassed y hy).imp_right fun hmem => by simp [hmem]
            | inr hy => exact Or.inr (by simp [List.mem_singleton.1 hy])
      · cases later with
        | nil => exact hroot (List.cons.inj hback).1
        | cons m later =>
            obtain ⟨rfl, -⟩ := List.cons.inj hback
            obtain ⟨m, hm, hroute⟩ := ihRest hlater
            exact ⟨m, List.mem_cons_of_mem _ hm, hroute⟩

/-- A chain repeats no dominator. -/
theorem nodup_dominatorChain (g : Digraph) (start n : Nat) : (g.dominatorChain start n).Nodup :=
  (List.nodup_reverse.2 (g.nodup_reversePostOrder [start])).sublist
    (g.dominatorChain_sublist start n)

section

variable (hg : g.Bounded) (hstart : start < g.size) {front back : List Nat} {d n : Nat}

include hg hstart

/-- The order has what is reached. -/
theorem mem_reversePostOrder_iff :
    n ∈ g.reversePostOrder [start] ↔ g.Reaches start n := by
  have hstarts : ∀ n ∈ [start], n < g.size := List.forall_mem_singleton.2 hstart
  constructor
  · intro hn
    obtain ⟨m, hm, -, hleads⟩ := (visits_reversePostOrder hg hstarts).exists_leads hn
    exact List.mem_singleton.1 hm ▸ leads_empty.1 hleads
  · intro hn
    induction hn with
    | refl => exact mem_reversePostOrder_of_mem hg hstarts List.mem_cons_self
    | tail _ hbc ih => exact mem_reversePostOrder_of_edge hg hstarts ih hbc

/-- **Dominators come first**: in a reverse post-order a strict dominator of a node stands before
it. -/
theorem mem_front_of_dominates (hsplit : g.reversePostOrder [start] = front ++ n :: back)
    (hd : g.Dominates start d n) (hne : d ≠ n) : d ∈ front := by
  have hvisits := visits_reversePostOrder hg (List.forall_mem_singleton.2 hstart)
  obtain ⟨m, hm, passed, hroute, hpassed⟩ := hvisits.exists_route hsplit
  rw [List.mem_singleton.1 hm] at hroute
  exact (hpassed d (hd passed hroute)).resolve_left hne

/-- A node does not dominate one that stands before it. -/
theorem not_dominates_front (hsplit : g.reversePostOrder [start] = front ++ n :: back)
    (hd : d ∈ front) :
    ¬g.Dominates start n d := by
  intro hdom
  obtain ⟨before, between, rfl⟩ := List.append_of_mem hd
  have hnodup := g.nodup_reversePostOrder [start]
  rw [hsplit, List.append_assoc] at hnodup
  have hne : n ≠ d := fun heq =>
    (List.nodup_cons.1 (List.nodup_append.1 hnodup).2.1).1 (by simp [heq])
  have hmem := mem_front_of_dominates hg hstart
    (hsplit.trans (List.append_assoc before (d :: between) (n :: back))) hdom hne
  exact (List.nodup_append.1 hnodup).2.2 n hmem n (by simp) rfl

/-- Of two dominators of a node the one that stands first dominates the other. -/
theorem StrictlyDominates.of_front {d e n : Nat}
    (hsplit : g.reversePostOrder [start] = front ++ e :: back) (hd : d ∈ front)
    (hdn : g.Dominates start d n) (hen : g.Dominates start e n) (hn : g.Reaches start n) :
    g.StrictlyDominates start d e where
  reaches := hen.reaches hn
  ne := by
    rintro rfl
    exact not_dominates_front hg hstart hsplit hd (.refl g start d)
  dominates := (hdn.comparable hen hn).resolve_right (not_dominates_front hg hstart hsplit hd)

theorem StrictlyDominates.trans {d e n : Nat} (hde : g.StrictlyDominates start d e)
    (hen : g.StrictlyDominates start e n) : g.StrictlyDominates start d n where
  reaches := hen.reaches
  ne := by
    -- otherwise each of the two would stand before the other
    rintro rfl
    obtain ⟨front, back, hsplit⟩ :=
      List.append_of_mem ((mem_reversePostOrder_iff hg hstart).2 hen.reaches)
    exact not_dominates_front hg hstart hsplit
      (mem_front_of_dominates hg hstart hsplit hen.dominates hen.ne) hde.dominates
  dominates := hde.dominates.trans hen.dominates

/-- **The nearest dominator**: a node with a strict dominator has one that all the others
dominate. -/
theorem exists_nearest (hsplit : g.reversePostOrder [start] = front ++ n :: back)
    (hd : g.StrictlyDominates start d n) :
    ∃ e ∈ front, ∀ x, g.StrictlyDominates start x n ↔ g.Dominates start x e := by
  -- the strict dominator that comes last in the order
  obtain ⟨later, e, earlier, hrev, he, hlater⟩ :=
    exists_first (P := fun x => g.StrictlyDominates start x n)
      (List.mem_reverse.2 (mem_front_of_dominates hg hstart hsplit hd.dominates hd.ne)) hd
  obtain rfl : front = earlier.reverse ++ e :: later.reverse := by
    rw [← List.reverse_reverse front, hrev]
    simp
  refine ⟨e, by simp, fun x => ⟨fun hx => ?_, fun hx => ⟨he.reaches, ?_, hx.trans he.dominates⟩⟩⟩
  · by_cases hxe : x = e
    · exact hxe ▸ Dominates.refl g start e
    · have hmem := mem_front_of_dominates hg hstart hsplit hx.dominates hx.ne
      have hearlier : x ∈ earlier.reverse := by
        have hnot : x ∉ later.reverse := fun hl => hlater x (List.mem_reverse.1 hl) hx
        simpa [hxe, hnot] using hmem
      rw [List.append_assoc] at hsplit
      exact (StrictlyDominates.of_front hg hstart hsplit hearlier hx.dominates he.dominates
        he.reaches).dominates
  · -- a node does not dominate its strict dominator
    rintro rfl
    exact not_dominates_front hg hstart hsplit (by simp) hx

/-- The start comes first. -/
theorem head?_reversePostOrder : (g.reversePostOrder [start]).head? = some start := by
  have hmem : start ∈ g.reversePostOrder [start] := (mem_reversePostOrder_iff hg hstart).2 .refl
  obtain ⟨n, back, hsplit⟩ := List.exists_cons_of_ne_nil (List.ne_nil_of_mem hmem)
  have hdom : g.Dominates start start n := fun passed hroute => hroute.start_mem
  have heq : start = n := by
    by_contra hne
    have hfront : g.reversePostOrder [start] = [] ++ n :: back := hsplit
    exact absurd (mem_front_of_dominates hg hstart hfront hdom hne) List.not_mem_nil
  rw [hsplit, heq]
  rfl

theorem mem_reachable_iff : n ∈ g.reachable start ↔ g.Reaches start n := by
  constructor
  · intro hn
    have hfuel : g.unseen {} < g.size + 1 := by
      rw [unseen_empty]
      exact Nat.lt_succ_self g.size
    obtain ⟨new, hnew⟩ := completes_visit hg hfuel hstart
    have hmem : n ∈ new := ((hnew.seen n).1 hn).resolve_left (by simp)
    obtain ⟨m, hm, -, hleads⟩ := hnew.visits.exists_leads hmem
    exact List.mem_singleton.1 hm ▸ leads_empty.1 (hleads.mono (Set.empty_subset _))
  · intro hn
    induction hn with
    | refl => exact mem_reachable_self hg hstart
    | tail _ hbc ih => exact mem_reachable_of_edge hg hstart ih hbc

/-- What stays reachable without a node has a route that does not pass it. -/
theorem mem_reachable_without_iff (hne : n ≠ d) :
    n ∈ (g.without d).reachable start ↔ ∃ passed, g.Route start passed n ∧ d ∉ passed := by
  rw [mem_reachable_iff (hg.without d) hstart]
  constructor
  · intro hn
    induction hn with
    | refl => exact ⟨_, .start, by simpa using hne.symm⟩
    | tail _ hbc ih =>
        obtain ⟨hedge, hb, hc⟩ := mem_edges_without.1 hbc
        obtain ⟨passed, hroute, hd⟩ := ih hb
        exact ⟨_, hroute.follow hedge, List.not_mem_cons_of_ne_of_not_mem hc.symm hd⟩
  · rintro ⟨passed, hroute, hd⟩
    induction hroute with
    | start => exact .refl
    | follow h hnm ih =>
        have hd' := List.not_mem_of_not_mem_cons hd
        have hn : _ ≠ d := fun heq => hd' (heq ▸ h.last_mem)
        exact (ih hn hd').tail (mem_edges_without.2 ⟨hnm, hn, hne⟩)

/-- **The chain of dominators**: for a reachable node it lists the strict dominators. -/
theorem mem_dominatorChain_iff (hn : g.Reaches start n) :
    d ∈ g.dominatorChain start n ↔ g.StrictlyDominates start d n := by
  have hcut : d ≠ n → (n ∉ (g.without d).reachable start ↔ g.Dominates start d n) := by
    intro hne
    rw [mem_reachable_without_iff hg hstart hne.symm]
    simp only [Dominates, not_exists, not_and, not_not]
  constructor
  · intro hd
    obtain ⟨hne, hout⟩ := of_mem_dominatorChain hd
    exact ⟨hn, hne, (hcut hne).1 hout⟩
  · rintro ⟨-, hne, hdom⟩
    have hmem := (mem_reversePostOrder_iff hg hstart).2 (hdom.reaches hn)
    simp only [dominatorChain, chainOf, cuts, List.mem_reverse, List.mem_filterMap, List.mem_map]
    exact ⟨_, ⟨d, hmem, rfl⟩, if_pos ⟨hne, (hcut hne).2 hdom⟩⟩

/-- **Nearest first**: each node of a chain is strictly dominated by those behind it. -/
theorem pairwise_dominatorChain (hn : g.Reaches start n) :
    (g.dominatorChain start n).Pairwise fun d e => g.StrictlyDominates start e d := by
  have horder : (g.reversePostOrder [start]).Pairwise fun e d =>
      g.Dominates start e n → g.Dominates start d n → g.StrictlyDominates start e d :=
    pairwise_of_split fun front d back hsplit e he hen hdn =>
      .of_front hg hstart hsplit he hen hdn hn
  have hdom : ∀ d ∈ g.dominatorChain start n, g.Dominates start d n := fun d hd =>
    ((mem_dominatorChain_iff hg hstart hn).1 hd).dominates
  have hchain := (List.pairwise_reverse.2 horder).sublist (g.dominatorChain_sublist start n)
  exact hchain.imp_of_mem fun hd he h => h (hdom _ he) (hdom _ hd)

/-- The start comes last. -/
theorem getLast?_dominatorChain (hn : g.Reaches start n) (hne : n ≠ start) :
    (g.dominatorChain start n).getLast? = some start := by
  have hmem : start ∈ g.dominatorChain start n :=
    (mem_dominatorChain_iff hg hstart hn).2 ⟨hn, hne.symm, fun _ hroute => hroute.start_mem⟩
  have hpairwise := pairwise_dominatorChain hg hstart hn
  obtain ⟨front, last, hchain⟩ := (List.eq_nil_or_concat' _).resolve_left (List.ne_nil_of_mem hmem)
  rw [hchain] at hmem hpairwise ⊢
  rw [List.getLast?_concat]
  cases List.mem_append.1 hmem with
  | inl hfront =>
      -- only the start itself dominates the start
      have hlast := (List.pairwise_append.1 hpairwise).2.2 start hfront last (by simp)
      exact absurd (List.mem_singleton.1 (hlast.dominates _ .start)) hlast.ne
  | inr hlast => rw [List.mem_singleton.1 hlast]

/-! ## going up -/

/-- Behind the nearest dominator stand its own dominators. -/
theorem dominatorChain_of_cons {n d : Nat} {rest : List Nat} (hn : g.Reaches start n)
    (h : g.dominatorChain start n = d :: rest) : g.dominatorChain start d = rest := by
  have hmem := fun e => mem_dominatorChain_iff hg hstart (d := e) hn
  have hnodup := g.nodup_dominatorChain start n
  have hpairwise := pairwise_dominatorChain hg hstart hn
  rw [h] at hmem hnodup hpairwise
  obtain ⟨hd, hrest⟩ := List.pairwise_cons.1 hpairwise
  have hdn : g.StrictlyDominates start d n := (hmem d).1 List.mem_cons_self
  have hreaches := hdn.dominates.reaches hn
  -- both lists are in the order of dominance, so it is enough to compare their members
  refine List.Perm.eq_of_pairwise (fun a b _ _ hab hba => ?_)
    (pairwise_dominatorChain hg hstart hreaches) hrest
    ((List.perm_ext_iff_of_nodup (g.nodup_dominatorChain start d) (List.nodup_cons.1 hnodup).2).2
      fun e => ?_)
  · exact absurd rfl (hab.trans hg hstart hba).ne
  · rw [mem_dominatorChain_iff hg hstart hreaches]
    constructor
    · intro he
      exact (List.mem_cons.1 ((hmem e).2 (he.trans hg hstart hdn))).resolve_left he.ne
    · exact hd e

/-- Chains are no longer than the graph. -/
theorem length_dominatorChain_le (n : Nat) : (g.dominatorChain start n).length ≤ g.size := by
  have hsub : g.dominatorChain start n ⊆ List.range g.size := fun d hd => by
    have hd := List.mem_reverse.1 ((g.dominatorChain_sublist start n).subset hd)
    have hreaches := (mem_reversePostOrder_iff hg hstart).1 hd
    exact List.mem_range.2 (hreaches.lt_size hg hstart)
  simpa using ((g.nodup_dominatorChain start n).subperm hsub).length_le

/-- **The way up**: the immediate dominators, one after the other, are all strict dominators. -/
theorem climb_eq_dominatorChain {n fuel : Nat} (hn : g.Reaches start n)
    (hfuel : (g.dominatorChain start n).length ≤ fuel) :
    climb (g.cuts start) fuel n = g.dominatorChain start n := by
  induction fuel generalizing n with
  | zero => exact (List.eq_nil_of_length_eq_zero (Nat.le_zero.1 hfuel)).symm
  | succ fuel ih =>
      have hfirst : immediateDominator? (g.cuts start) n = (g.dominatorChain start n).head? := rfl
      cases hchain : g.dominatorChain start n with
      | nil => simp [climb, hfirst, hchain]
      | cons d rest =>
          have hd := (mem_dominatorChain_iff hg hstart hn).1 (hchain ▸ List.mem_cons_self)
          have hrest := dominatorChain_of_cons hg hstart hn hchain
          rw [hchain, List.length_cons] at hfuel
          have hclimb := ih (hd.dominates.reaches hn) (by rw [hrest]; omega)
          simp [climb, hfirst, hchain, hclimb, hrest]

end

end Pathwise.Digraph
