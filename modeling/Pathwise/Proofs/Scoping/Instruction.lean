import Pathwise.Proofs.Scoping.Term
import Pathwise.Proofs.Wording.Instruction

/-!
# Pathwise.Proofs.Scoping.Instruction

What an instruction becomes uses the constants of its own variables only
(`Lowering.scoped_lower`): in the terms it asserts and in the effects that a path
acts on.
-/

namespace Pathwise

/-! ## scoped statements -/

/-- The constants that a path needs for an effect: sources, arguments, targets and returned
values. -/
def Effect.Scoped (provided : String → Prop) (declared : List String) : Effect → Prop
  | .call _ arguments target =>
    (∀ a ∈ arguments, a.Scoped provided declared) ∧ ∀ x ∈ target, x ∈ declared
  | .allocate _ target => target ∈ declared
  | .construct _ target _ arguments =>
    target ∈ declared ∧ ∀ a ∈ arguments, a.Scoped provided declared
  | .ret value => ∀ a ∈ value, a.Scoped provided declared
  | .assign source target => source.Scoped provided declared ∧ target ∈ declared
  | .none | .throw _ => True

/-- A statement that asserts scoped terms. -/
structure Statement.Scoped (provided : String → Prop) (declared : List String)
    (s : Statement) : Prop where
  asserts : s.isDeclaration = false
  terms : ∀ e ∈ s.terms, e.Scoped provided declared
  effect : s.effect.Scoped provided declared

/-- All statements of an instruction are scoped. -/
def Lowered.Scoped (provided : String → Prop) (declared : List String) : Lowered → Prop
  | .plain statements => ∀ s ∈ statements, s.Scoped provided declared
  | .faulting groups semantics =>
    (∀ g ∈ groups, g.2.Scoped provided declared) ∧ ∀ s ∈ semantics, s.Scoped provided declared
  | .branch taken notTaken => taken.Scoped provided declared ∧ notTaken.Scoped provided declared

theorem Effect.scoped_iff {V : String → Prop} {D : List String} {effect : Effect} :
    effect.Scoped V D ↔ effect.All (·.Scoped V D) (· ∈ D) := by
  cases effect <;> exact Iff.rfl

theorem Effect.Scoped.mono {V : String → Prop} {D D' : List String} {effect : Effect}
    (h : effect.Scoped V D) (hD : D ⊆ D') : effect.Scoped V D' :=
  scoped_iff.2 ((scoped_iff.1 h).imp (fun _ he => he.mono hD) fun _ hx => hD hx)

namespace Statement.Scoped

variable {V : String → Prop} {D D' : List String} {s : Statement}

theorem mono (h : s.Scoped V D) (hD : D ⊆ D') : s.Scoped V D' where
  asserts := h.asserts
  terms e he := (h.terms e he).mono hD
  effect := h.effect.mono hD

theorem inGroup (h : s.Scoped V D) (group : Nat) : (s.inGroup group).Scoped V D :=
  ⟨h.asserts, h.terms, h.effect⟩

end Statement.Scoped

/-! ## instructions -/

namespace Lowering

open MethodGraph (Instruction)

variable {V : String → Prop} {D : List String} {c : Lowering} {i : Instruction}

/-- **Instructions**: what one becomes uses the constants of its variables. -/
theorem scoped_lower (hl : c.lookup.Speaks V)
    (hD : ∀ x ∈ i.variables, c.symbol x ∈ D)
    (hnamed : ∀ t ∈ i.namedTypes, V t.tag) {l : Lowered}
    (h : c.lower i = .ok l) : l.Scoped V D := by
  have hw : c.Words i (·.Speaks V) (·.Scoped V D) (· ∈ D) :=
    ⟨hl, hD, fun _ hx => .constant hx, fun t ht => .provided (hnamed t ht) t.mark_not_mem_tag⟩
  have hmade : ∀ {st : Statement}, st.All (Sexp.Made (·.Speaks V) (·.Scoped V D)) (· ∈ D) →
      st.Scoped V D := by
    intro st hst
    obtain ⟨hasserts, hterms, heffect⟩ :=
      hst.imp (fun e he => he.scoped (fun _ => id) fun _ => id) fun _ => id
    exact ⟨hasserts, hterms, Effect.scoped_iff.2 heffect⟩
  have hall := all_lower hw h
  cases l with
  | plain statements => exact fun st hst => hmade (hall st hst)
  | faulting groups semantics =>
      exact ⟨fun g hg => hmade (hall.1 g hg), fun st hst => hmade (hall.2 st hst)⟩
  | branch taken notTaken => exact ⟨hmade hall.1, hmade hall.2⟩

end Lowering

end Pathwise
