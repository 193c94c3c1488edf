import Pathwise.Proofs.PostOrder

/-!
# Pathwise.Proofs.Traversal

Depth-first search with a stack of its own in place of nested calls. A node stays
on the stack while the nodes behind it are searched, and it can stand there
several times: whichever entry is on top first meets the node, and the others are
dropped when their turn comes.

It finishes nodes in the order of `Digraph.visit`
(`runs_reversePostOrder`). What keeps the two together is that a node on the stack which
has been met is finished, unless it is one whose successors are being searched
(`Visits.runs`).
-/

namespace Pathwise.Digraph

open Relation (ReflTransGen)

/-- A search with a stack, its top first. The nodes it has met and those it is done with are listed
newest first. -/
structure Traversal where
  stack : List Nat
  met : List Nat := []
  finished : List Nat := []

namespace Traversal

/-- Look at the top of the stack. A new node is met, and those of its successors that have not been
met go on top of it, the first one topmost. A node that has been met is taken off, and is finished
if it was not before. -/
def step? (g : Digraph) (t : Traversal) : Option Traversal :=
  match t.stack with
  | [] => none
  | n :: rest =>
    if n ∈ t.met then
      some { t with
        stack := rest
        finished := if n ∈ t.finished then t.finished else n :: t.finished }
    else
      some { t with
        stack := (g.successors n).filter (· ∉ n :: t.met) ++ n :: rest
        met := n :: t.met }

/-- The second state comes after the first. -/
def Runs (g : Digraph) : Traversal → Traversal → Prop := ReflTransGen fun s t => s.step? g = some t

section

variable {g : Digraph} {n : Nat} {met finished : List Nat} (rest : List Nat)

theorem step?_meet (finished : List Nat) (h : n ∉ met) :
    step? g ⟨n :: rest, met, finished⟩ =
      some ⟨(g.successors n).filter (· ∉ n :: met) ++ n :: rest, n :: met, finished⟩ := by
  simp only [step?, if_neg h]

theorem step?_finish (h : n ∈ met) (hnew : n ∉ finished) :
    step? g ⟨n :: rest, met, finished⟩ = some ⟨rest, met, n :: finished⟩ := by
  simp only [step?, if_pos h, if_neg hnew]

theorem step?_drop (h : n ∈ met) (hold : n ∈ finished) :
    step? g ⟨n :: rest, met, finished⟩ = some ⟨rest, met, finished⟩ := by
  simp only [step?, if_pos h, if_pos hold]

end

end Traversal

variable {g : Digraph}

/-- A complete search is what the stack does with its topmost nodes. Those that were left out when
the others were pushed have been met; of the others only finished ones have. -/
theorem Visits.runs {starts new : List Nat} {S : Set Nat} (h : g.Visits starts S new)
    (out finished rest : List Nat) {met : List Nat} (hmet : ∀ x, x ∈ met ↔ x ∈ S)
    (hfinished : ∀ x ∈ finished, x ∈ S) (hout : ∀ x ∈ out, x ∈ S)
    (hdone : ∀ x ∈ starts, x ∉ out → x ∈ S → x ∈ finished) :
    ∃ met', (∀ x, x ∈ met' ↔ x ∈ S ∨ x ∈ new) ∧
      Traversal.Runs g ⟨starts.filter (· ∉ out) ++ rest, met, finished⟩
        ⟨rest, met', new ++ finished⟩ := by
  induction h generalizing out met finished rest with
  | nil S => exact ⟨met, by simpa using hmet, .refl⟩
  | @skip n starts new S hn _ ih =>
      rw [List.forall_mem_cons] at hdone
      obtain ⟨met', hmet', hruns⟩ := ih out finished rest hmet hfinished hout hdone.2
      refine ⟨met', hmet', ?_⟩
      by_cases hno : n ∈ out
      · rwa [List.filter_cons_of_neg (by simpa using hno)]
      · rw [List.filter_cons_of_pos (by simpa using hno), List.cons_append]
        exact hruns.head (Traversal.step?_drop _ ((hmet n).2 hn) (hdone.1 hno hn))
  | @visit n starts inner new S hn within _ ihWithin ihRest =>
      rw [List.forall_mem_cons] at hdone
      have hno : n ∉ out := fun h => hn (hout n h)
      rw [List.filter_cons_of_pos (by simpa using hno), List.cons_append]
      have hmeet := Traversal.step?_meet (g := g) (starts.filter (· ∉ out) ++ rest) finished
        fun h => hn ((hmet n).1 h)
      have hmem : ∀ x, x ∈ n :: met ↔ x ∈ insert n S := fun x => by
        rw [List.mem_cons, hmet, Set.mem_insert_iff]
      -- the nodes behind `n` are searched while it stays below them
      obtain ⟨met₁, hmet₁, hwithin⟩ := ihWithin (n :: met) finished
        (n :: (starts.filter (· ∉ out) ++ rest)) hmem
        (fun x hx => Set.mem_insert_of_mem n (hfinished x hx)) (fun x => (hmem x).1)
        (fun x _ hx hS => absurd ((hmem x).2 hS) hx)
      have hmem₁ : ∀ x, x ∈ met₁ ↔ x ∈ S ∪ {x | x ∈ n :: inner} := fun x => by
        rw [hmet₁, Set.mem_insert_iff, Set.mem_union, Set.mem_ofPred_eq, List.mem_cons]
        tauto
      have hnew : n ∉ inner ++ finished := by
        rw [List.mem_append]
        rintro (hinner | hfin)
        · exact within.not_mem hinner (Set.mem_insert n S)
        · exact hn (hfinished n hfin)
      have hfinish := Traversal.step?_finish (g := g) (starts.filter (· ∉ out) ++ rest)
        ((hmem₁ n).2 (Or.inr List.mem_cons_self)) hnew
      obtain ⟨met₂, hmet₂, hrest⟩ := ihRest out (n :: inner ++ finished) rest hmem₁
        (fun x hx => (List.mem_append.1 hx).elim Or.inr fun hx => Or.inl (hfinished x hx))
        (fun x hx => Or.inl (hout x hx))
        (fun x hx hxo hS => List.mem_append.2 (hS.symm.imp_right (hdone.2 x hx hxo)))
      refine ⟨met₂, fun x => ?_, ?_⟩
      · rw [hmet₂, Set.mem_union, Set.mem_ofPred_eq, List.mem_append]
        tauto
      · rw [List.append_assoc]
        exact ((hwithin.tail hfinish).trans hrest).head hmeet

/-- **The search with a stack** comes to an end, and finishes nodes in the same order. -/
theorem runs_reversePostOrder (hg : g.Bounded) {start : Nat} (hstart : start < g.size) :
    ∃ met, Traversal.Runs g { stack := [start] }
      { stack := [], met, finished := g.reversePostOrder [start] } := by
  have hvisits := visits_reversePostOrder hg (List.forall_mem_singleton.2 hstart)
  have hnone : ∀ x : Nat, x ∈ ([] : List Nat) ↔ x ∈ (∅ : Set Nat) := by simp
  obtain ⟨met, -, hruns⟩ := hvisits.runs [] [] [] hnone (by simp) (by simp) (by simp)
  exact ⟨met, by simpa using hruns⟩

end Pathwise.Digraph
