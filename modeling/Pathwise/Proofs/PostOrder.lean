import Mathlib.Data.Set.Insert
import Mathlib.Logic.Relation
import Pathwise.Proofs.Search

/-!
# Pathwise.Proofs.PostOrder

The order in which a depth-first search finishes nodes. `Digraph.Visits` is a
complete search without fuel, and a search with enough fuel is one
(`visits_reversePostOrder`).

One property of the order carries both uses of it, `Visits.leads_back`: of all
nodes that `x` leads to, the one finished last leads back to `x`. Hence on a graph
without cycles edges point forward in a reverse post-order
(`pairwise_reversePostOrder`), and on any graph the nodes that a node leads to can be
told from its strongly connected component (`Pathwise.Proofs.Components`).
-/

namespace Pathwise.Digraph

open Relation (ReflTransGen)

variable {g : Digraph}

/-! ## paths -/

/-- There is a path from one node to another. -/
def Reaches (g : Digraph) : Nat → Nat → Prop := ReflTransGen fun a b => (a, b) ∈ g.edges

/-- There is a path that enters no node of a set. -/
def Leads (g : Digraph) (S : Set Nat) : Nat → Nat → Prop :=
  ReflTransGen fun a b => (a, b) ∈ g.edges ∧ b ∉ S

theorem leads_empty {x y : Nat} : g.Leads ∅ x y ↔ g.Reaches x y := by
  simp [Leads, Reaches]

theorem reaches_flip {x y : Nat} : g.flip.Reaches x y ↔ g.Reaches y x := by
  have hswap : (fun a b => (a, b) ∈ g.flip.edges) = Function.swap fun a b => (a, b) ∈ g.edges := by
    funext a b
    simp [flip, Function.swap]
  unfold Reaches
  rw [hswap, Relation.reflTransGen_swap]

namespace Leads

variable {S T : Set Nat} {x y : Nat}

theorem mono (hST : S ⊆ T) (h : g.Leads T x y) : g.Leads S x y := by
  induction h with
  | refl => exact .refl
  | tail _ hbc ih => exact ih.tail ⟨hbc.1, fun hc => hbc.2 (hST hc)⟩

/-- A path does not leave a set whose edges stay inside it, except to where it must not go. -/
theorem mem_of_closed (h : g.Leads S x y) (hx : x ∈ T)
    (hT : ∀ a ∈ T, ∀ b, (a, b) ∈ g.edges → b ∈ S ∨ b ∈ T) : y ∈ T := by
  induction h with
  | refl => exact hx
  | tail _ hbc ih => exact (hT _ ih _ hbc.1).resolve_left hbc.2

/-- A path that ends outside such a set has not entered it. -/
theorem avoid_closed (h : g.Leads S x y) (hy : y ∉ T)
    (hT : ∀ a ∈ T, ∀ b, (a, b) ∈ g.edges → b ∈ S ∨ b ∈ T) : g.Leads (S ∪ T) x y := by
  induction h with
  | refl => exact .refl
  | tail _ hbc ih =>
      have hb : _ ∉ T := fun hb => hy ((hT _ hb _ hbc.1).resolve_left hbc.2)
      exact (ih hb).tail ⟨hbc.1, fun hc => hc.elim hbc.2 hy⟩

/-- A path does not enter what its start does not lead to. -/
theorem avoid (h : g.Leads S x y) (hT : ∀ z ∈ T, ¬g.Leads S x z) : g.Leads (S ∪ T) x y := by
  induction h with
  | refl => exact .refl
  | tail hab hbc ih =>
      exact ih.tail ⟨hbc.1, fun hc => hc.elim hbc.2 fun hc => hT _ hc (hab.tail hbc)⟩

end Leads

/-! ## complete searches -/

/-- A complete search from some nodes, one after the other, that enters no node of a set: the nodes
it finishes, the last one first. -/
inductive Visits (g : Digraph) : (starts : List Nat) → Set Nat → (finished : List Nat) → Prop where
  | nil (S : Set Nat) : Visits g [] S []
  | skip {n : Nat} {starts finished : List Nat} {S : Set Nat} (hn : n ∈ S)
      (rest : Visits g starts S finished) : Visits g (n :: starts) S finished
  | visit {n : Nat} {starts inner finished : List Nat} {S : Set Nat} (hn : n ∉ S)
      (within : Visits g (g.successors n) (insert n S) inner)
      (rest : Visits g starts (S ∪ {x | x ∈ n :: inner}) finished) :
      Visits g (n :: starts) S (finished ++ n :: inner)

namespace Visits

variable {starts finished : List Nat} {S : Set Nat}

theorem cons {n : Nat} {inner : List Nat} (h : g.Visits [n] S inner)
    (rest : g.Visits starts (S ∪ {x | x ∈ inner}) finished) :
    g.Visits (n :: starts) S (finished ++ inner) := by
  cases h with
  | skip hn done =>
      cases done
      have hnone : {x | x ∈ ([] : List Nat)} = (∅ : Set Nat) := by simp
      rw [hnone, Set.union_empty] at rest
      rw [List.append_nil]
      exact .skip hn rest
  | visit hn within done =>
      cases done
      rw [List.nil_append] at rest ⊢
      exact .visit hn within rest

theorem not_mem (h : g.Visits starts S finished) {x : Nat} (hx : x ∈ finished) : x ∉ S := by
  induction h with
  | nil S => contradiction
  | skip _ _ ih => exact ih hx
  | visit hn _ _ ihWithin ihRest =>
      cases List.mem_append.1 hx with
      | inl hx => exact fun hS => ihRest hx (Or.inl hS)
      | inr hx =>
          cases List.mem_cons.1 hx with
          | inl heq => exact heq ▸ hn
          | inr hx => exact fun hS => ihWithin hx (Set.mem_insert_of_mem _ hS)

theorem mem_of_mem_starts (h : g.Visits starts S finished) {n : Nat} (hn : n ∈ starts) :
    n ∈ S ∨ n ∈ finished := by
  induction h with
  | nil S => contradiction
  | skip hm _ ih =>
      cases List.mem_cons.1 hn with
      | inl heq => exact Or.inl (heq ▸ hm)
      | inr hn => exact ih hn
  | visit _ _ _ _ ihRest =>
      cases List.mem_cons.1 hn with
      | inl heq => exact Or.inr (by simp [heq])
      | inr hn =>
          obtain (hS | hx) | hx := ihRest hn
          · exact Or.inl hS
          · exact Or.inr (List.mem_append_right _ hx)
          · exact Or.inr (List.mem_append_left _ hx)

/-- A search goes on until nothing is left behind the nodes it finishes. -/
theorem mem_of_edge (h : g.Visits starts S finished) {x y : Nat} (hx : x ∈ finished)
    (hxy : (x, y) ∈ g.edges) : y ∈ S ∨ y ∈ finished := by
  induction h with
  | nil S => contradiction
  | skip _ _ ih => exact ih hx
  | @visit n starts inner finished S hn within rest ihWithin ihRest =>
      have hinner : y ∈ insert n S ∨ y ∈ inner → y ∈ S ∨ y ∈ finished ++ n :: inner := by
        rintro ((rfl | hS) | hy)
        · exact Or.inr (by simp)
        · exact Or.inl hS
        · exact Or.inr (by simp [hy])
      cases List.mem_append.1 hx with
      | inl hx =>
          obtain (hS | hy) | hy := ihRest hx
          · exact Or.inl hS
          · exact Or.inr (List.mem_append_right _ hy)
          · exact Or.inr (List.mem_append_left _ hy)
      | inr hx =>
          cases List.mem_cons.1 hx with
          | inl heq =>
              subst heq
              exact hinner (within.mem_of_mem_starts (mem_successors.2 hxy))
          | inr hx => exact hinner (ihWithin hx)

/-- Every node that a search finishes lies behind one of its starts. -/
theorem exists_leads (h : g.Visits starts S finished) {x : Nat} (hx : x ∈ finished) :
    ∃ n ∈ starts, n ∉ S ∧ g.Leads S n x := by
  induction h with
  | nil S => contradiction
  | skip _ _ ih =>
      obtain ⟨n, hn, hleads⟩ := ih hx
      exact ⟨n, List.mem_cons_of_mem _ hn, hleads⟩
  | @visit n starts inner finished S hn _ _ ihWithin ihRest =>
      cases List.mem_append.1 hx with
      | inl hx =>
          obtain ⟨m, hm, hmS, hleads⟩ := ihRest hx
          exact ⟨m, List.mem_cons_of_mem _ hm, fun hS => hmS (Or.inl hS),
            hleads.mono Set.subset_union_left⟩
      | inr hx =>
          refine ⟨n, List.mem_cons_self, hn, ?_⟩
          cases List.mem_cons.1 hx with
          | inl heq => exact heq ▸ .refl
          | inr hx =>
              obtain ⟨m, hm, hmS, hleads⟩ := ihWithin hx
              refine (hleads.mono (Set.subset_insert n S)).head ⟨mem_successors.1 hm, fun hS => ?_⟩
              exact hmS (Set.mem_insert_of_mem n hS)

/-- **The way back**: of the nodes that `x` leads to, the one finished last leads back to `x`. -/
theorem leads_back (h : g.Visits starts S finished) {front back : List Nat} {x y : Nat}
    (hsplit : finished = front ++ y :: back) (hx : x ∈ finished) (hxy : g.Leads S x y)
    (hfront : ∀ z ∈ front, ¬g.Leads S x z) : g.Leads S y x := by
  induction h generalizing front back with
  | nil S => contradiction
  | skip _ _ ih => exact ih hsplit hx hxy hfront
  | @visit n starts inner finished S hn within rest ihWithin ihRest =>
      -- what was finished up to `n` has no edges to what is finished later
      have hclosed : ∀ a ∈ {z | z ∈ n :: inner}, ∀ b, (a, b) ∈ g.edges →
          b ∈ S ∨ b ∈ {z | z ∈ n :: inner} := by
        intro a ha b hab
        have hb : b ∈ insert n S ∨ b ∈ inner := by
          cases List.mem_cons.1 ha with
          | inl heq =>
              subst heq
              exact within.mem_of_mem_starts (mem_successors.2 hab)
          | inr ha => exact within.mem_of_edge ha hab
        obtain (rfl | hS) | hb := hb
        · exact Or.inr List.mem_cons_self
        · exact Or.inl hS
        · exact Or.inr (List.mem_cons_of_mem n hb)
      have hself : x ∉ front := fun hmem => hfront x hmem .refl
      -- if `y` is `n`, everything finished up to it lies behind it
      have hroot : front = finished → y = n → g.Leads S y x := by
        rintro rfl rfl
        cases List.mem_cons.1 ((List.mem_append.1 hx).resolve_left hself) with
        | inl heq => exact heq ▸ .refl
        | inr hx =>
            obtain ⟨m, hm, hmS, hleads⟩ := within.exists_leads hx
            refine (hleads.mono (Set.subset_insert y S)).head ⟨mem_successors.1 hm, fun hS => ?_⟩
            exact hmS (Set.mem_insert_of_mem y hS)
      obtain ⟨later, hlater, hinner⟩ | ⟨later, hlater, hback⟩ := List.append_eq_append_iff.1 hsplit
      · cases later with
        | nil =>
            rw [List.append_nil] at hlater
            exact hroot hlater (List.cons.inj hinner).1.symm
        | cons m later =>
            obtain ⟨rfl, htail⟩ := List.cons.inj hinner
            -- `x` is behind `n`, but does not lead to it
            have hn : ∀ z ∈ ({n} : Set Nat), ¬g.Leads S x z := by
              rintro z rfl
              exact hfront z (by simp [hlater])
            have hmem : x ∈ inner := by
              rw [hlater] at hself
              simp only [List.mem_append, List.mem_cons] at hx hself
              tauto
            have hback := ihWithin htail hmem (by
              rw [Set.insert_eq, Set.union_comm]
              exact hxy.avoid hn) (by
              intro z hz hleads
              exact hfront z (by simp [hlater, hz]) (hleads.mono (Set.subset_insert n S)))
            exact hback.mono (Set.subset_insert n S)
      · cases later with
        | nil =>
            rw [List.append_nil] at hlater
            exact hroot hlater.symm (List.cons.inj hback).1
        | cons m later =>
            obtain ⟨rfl, -⟩ := List.cons.inj hback
            have hy : y ∉ {z | z ∈ n :: inner} := fun hmem =>
              rest.not_mem (hlater ▸ by simp) (Or.inr hmem)
            have hmem : x ∈ finished := by
              refine (List.mem_append.1 hx).resolve_right fun hx => hy ?_
              exact hxy.mem_of_closed hx hclosed
            have hback := ihRest hlater hmem (hxy.avoid_closed hy hclosed) (by
              intro z hz hleads
              exact hfront z hz (hleads.mono Set.subset_union_left))
            exact hback.mono Set.subset_union_left

end Visits

/-! ## searches with fuel -/

/-- The second search has gone on from the first: what it finished, and that it was complete. -/
structure Search.Completes (g : Digraph) (starts : List Nat) (s t : Search) (new : List Nat) :
    Prop where
  finished : t.finished = new ++ s.finished
  seen : ∀ x, x ∈ t.seen ↔ x ∈ s.seen ∨ x ∈ new
  visits : g.Visits starts {x | x ∈ s.seen} new

theorem completes_foldl {fuel : Nat}
    (hvisit : ∀ s n, g.unseen s < fuel → n < g.size →
      ∃ new, Search.Completes g [n] s (g.visit fuel s n) new)
    {starts : List Nat} (hstarts : ∀ n ∈ starts, n < g.size) {s : Search}
    (hs : g.unseen s < fuel) :
    ∃ new, Search.Completes g starts s (starts.foldl (g.visit fuel) s) new := by
  induction starts generalizing s with
  | nil => exact ⟨[], rfl, by simp, .nil _⟩
  | cons n starts ih =>
      rw [List.forall_mem_cons] at hstarts
      obtain ⟨inner, hinner⟩ := hvisit s n hs hstarts.1
      have hless := (unseen_mono (g.extends_visit fuel s n).seen).trans_lt hs
      obtain ⟨later, hlater⟩ := ih hstarts.2 hless
      refine ⟨later ++ inner, ?_, fun x => ?_, hinner.visits.cons ?_⟩
      · rw [List.foldl_cons, hlater.finished, hinner.finished, List.append_assoc]
      · rw [List.foldl_cons, hlater.seen, hinner.seen, List.mem_append]
        tauto
      · have hseen : {x | x ∈ (g.visit fuel s n).seen} = {x | x ∈ s.seen} ∪ {x | x ∈ inner} :=
          Set.ext hinner.seen
        rw [← hseen]
        exact hlater.visits

theorem completes_visit (hg : g.Bounded) {fuel : Nat} {s : Search} {n : Nat}
    (hfuel : g.unseen s < fuel) (hn : n < g.size) :
    ∃ new, Search.Completes g [n] s (g.visit fuel s n) new := by
  induction fuel generalizing s n with
  | zero => omega
  | succ fuel ih =>
      obtain ⟨hseen, heq⟩ | ⟨hseen, inner, hinner, heq⟩ := g.visit_succ fuel s n
      · rw [heq]
        exact ⟨[], rfl, by simp, .skip hseen (.nil _)⟩
      · have hless := unseen_cons hseen hn
        have hsucc : ∀ m ∈ g.successors n, m < g.size :=
          fun m hm => hg n m (mem_successors.1 hm)
        obtain ⟨new, hnew⟩ := completes_foldl (fun s n => ih) hsucc
          (s := { s with seen := n :: s.seen }) (by omega)
        rw [← hinner] at hnew
        rw [heq]
        refine ⟨n :: new, congrArg (n :: ·) hnew.finished, fun x => ?_, ?_⟩
        · have hmem := hnew.seen x
          simp only [List.mem_cons] at hmem ⊢
          tauto
        · have hinsert : {x | x ∈ n :: s.seen} = insert n {x | x ∈ s.seen} := by
            ext x
            simp
          have hwithin := hnew.visits
          rw [hinsert] at hwithin
          exact .visit hseen hwithin (.nil _)

/-! ## reverse post-orders -/

section

variable {starts : List Nat}

theorem visits_reversePostOrder (hg : g.Bounded) (hstarts : ∀ n ∈ starts, n < g.size) :
    g.Visits starts ∅ (g.reversePostOrder starts) := by
  obtain ⟨new, hnew⟩ := completes_foldl (g := g) (fun s n => completes_visit hg) hstarts
    (s := {}) (by rw [unseen_empty]; exact Nat.lt_succ_self g.size)
  have heq : g.reversePostOrder starts = new := hnew.finished.trans (List.append_nil new)
  rw [heq]
  simpa using hnew.visits

theorem mem_reversePostOrder_of_mem (hg : g.Bounded) (hstarts : ∀ n ∈ starts, n < g.size)
    {n : Nat} (hn : n ∈ starts) : n ∈ g.reversePostOrder starts :=
  ((visits_reversePostOrder hg hstarts).mem_of_mem_starts hn).resolve_left (by simp)

theorem mem_reversePostOrder_of_edge (hg : g.Bounded) (hstarts : ∀ n ∈ starts, n < g.size)
    {n m : Nat} (hn : n ∈ g.reversePostOrder starts) (hnm : (n, m) ∈ g.edges) :
    m ∈ g.reversePostOrder starts :=
  ((visits_reversePostOrder hg hstarts).mem_of_edge hn hnm).resolve_left (by simp)

end

theorem Reaches.lt_size (hg : g.Bounded) {x y : Nat} (h : g.Reaches x y) (hx : x < g.size) :
    y < g.size := by
  induction h with
  | refl => exact hx
  | tail _ hbc _ => exact hg _ _ hbc

/-- A search from all nodes lists all nodes. -/
theorem mem_reversePostOrder_range (hg : g.Bounded) {n : Nat} :
    n ∈ g.reversePostOrder (List.range g.size) ↔ n < g.size := by
  have hstarts : ∀ n ∈ List.range g.size, n < g.size := fun n => List.mem_range.1
  constructor
  · intro hn
    obtain ⟨m, hm, -, hleads⟩ := (visits_reversePostOrder hg hstarts).exists_leads hn
    exact (leads_empty.1 hleads).lt_size hg (hstarts m hm)
  · intro hn
    exact mem_reversePostOrder_of_mem hg hstarts (List.mem_range.2 hn)

/-- The way back in a search from all nodes. -/
theorem reaches_back (hg : g.Bounded) {front back : List Nat} {x y : Nat}
    (hsplit : g.reversePostOrder (List.range g.size) = front ++ y :: back) (hx : x < g.size)
    (hxy : g.Reaches x y) (hfront : ∀ z ∈ front, ¬g.Reaches x z) : g.Reaches y x := by
  have hstarts : ∀ n ∈ List.range g.size, n < g.size := fun n => List.mem_range.1
  have hvisits := visits_reversePostOrder hg hstarts
  refine leads_empty.1 (hvisits.leads_back hsplit ((mem_reversePostOrder_range hg).2 hx)
    (leads_empty.2 hxy) fun z hz hleads => ?_)
  exact hfront z hz (leads_empty.1 hleads)

theorem exists_first {α : Type} {P : α → Prop} {l : List α} {a : α} (ha : a ∈ l) (hP : P a) :
    ∃ front b back, l = front ++ b :: back ∧ P b ∧ ∀ z ∈ front, ¬P z := by
  induction l with
  | nil => contradiction
  | cons b l ih =>
      by_cases hb : P b
      · exact ⟨[], b, l, rfl, hb, by simp⟩
      · have hmem : a ∈ l := (List.mem_cons.1 ha).resolve_left fun heq => hb (heq ▸ hP)
        obtain ⟨front, c, back, rfl, hc, hfront⟩ := ih hmem
        exact ⟨b :: front, c, back, rfl, hc, List.forall_mem_cons.2 ⟨hb, hfront⟩⟩

theorem pairwise_of_split {α : Type} {R : α → α → Prop} {l : List α}
    (h : ∀ front x back, l = front ++ x :: back → ∀ a ∈ front, R a x) : l.Pairwise R := by
  induction l using List.reverseRecOn with
  | nil => exact .nil
  | append_singleton l x ih =>
      refine List.pairwise_append.2 ⟨ih fun front y back hl => ?_, List.pairwise_singleton R x, ?_⟩
      · exact h front y (back ++ [x]) (by simp [hl])
      · intro a ha b hb
        exact List.mem_singleton.1 hb ▸ h l x [] rfl a ha

/-- **Edges point forward**: in a graph without cycles no node reaches one that stands before it in
a reverse post-order. -/
theorem pairwise_reversePostOrder (hg : g.Bounded)
    (hacyclic : ∀ x y, g.Reaches x y → g.Reaches y x → x = y) :
    (g.reversePostOrder (List.range g.size)).Pairwise fun a x => ¬g.Reaches x a := by
  refine pairwise_of_split fun front x back hsplit a ha hxa => ?_
  obtain ⟨front', y, back', rfl, hxy, hfirst⟩ := exists_first (P := g.Reaches x) ha hxa
  have hx : x < g.size := (mem_reversePostOrder_range hg).1 (hsplit ▸ by simp)
  have hfirstSplit : g.reversePostOrder (List.range g.size) =
      front' ++ y :: (back' ++ x :: back) := by
    rw [hsplit]
    simp
  have hyx := reaches_back hg hfirstSplit hx hxy hfirst
  obtain rfl := hacyclic x y hxy hyx
  have hnodup := g.nodup_reversePostOrder (List.range g.size)
  rw [hsplit, List.nodup_append] at hnodup
  exact hnodup.2.2 x (by simp) x (by simp) rfl

end Pathwise.Digraph
