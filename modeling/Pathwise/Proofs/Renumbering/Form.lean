import Pathwise.Proofs.Renumbering.Pointer
import Pathwise.Proofs.Scoping.Path

/-!
# Pathwise.Proofs.Renumbering.Form

Every constant of a form is that of a slot of its method and is renamed as such,
wherever it stands: in assertions, declarations, effects and parameters
(`Engine.Filled.renamable`). Its assertions say nothing about pointers.
-/

namespace Pathwise

namespace Form

/-- All constants that a form declares. -/
def symbols (f : Form) : List String := Placed.symbols f.declared

/-- A form whose statements use only what it declares, and whose renamings act on slots. -/
structure Renamable (provided : String → Prop) (f : Form) : Prop where
  fixes : ∀ site x, '!' ∉ x.toList → (Renaming.of f site).symbol x = x
  slots : ∀ x ∈ f.symbols, ∃ slot, ∀ site,
    (Renaming.of f site).symbol x = site.constant f.method slot
  statements : ∀ p ∈ f.statements,
    (∃ slot x sort, p.statement.body = .declaration slot x sort ∧ x ∈ f.symbols) ∨
      p.statement.Scoped provided f.symbols
  silent : ∀ p ∈ f.statements, p.statement.Silent
  parameters : ∀ q ∈ f.parameters, q.symbol ∈ f.symbols

theorem renamable_empty (provided : String → Prop) (m : MethodRef) :
    (Form.empty m).Renamable provided where
  fixes site x _ := by simp [Renaming.symbol, Renaming.of, locals, empty]
  slots x hx := by simp [symbols, empty, Placed.symbols] at hx
  statements p hp := by simp [Form.statements, empty, Block.statements] at hp
  silent p hp := by simp [Form.statements, empty, Block.statements] at hp
  parameters q hq := by simp [empty] at hq

variable {lookup : SentenceLookup} {g : MethodGraph} {f : Form}

/-- Declared constants are symbols. -/
theorem mem_symbols_of_declares (h : Form.ofGraph lookup g = .ok f) {p : Placed}
    (hp : f.Declares p) {slot : Slot} {x : String} {sort : Sexp}
    (hbody : p.statement.body = .declaration slot x sort) : x ∈ f.symbols := by
  obtain ⟨b, hb, hp⟩ := hp
  refine List.mem_filterMap.2 ⟨p, declarations_subset_declared h hb hp, ?_⟩
  simp only [Statement.symbol?, hbody]

theorem method_of_ofGraph (h : Form.ofGraph lookup g = .ok f) : f.method = g.method := by
  obtain ⟨-, entry, parameters, blocks, -, -, rfl⟩ := ofGraph_eq_ok h
  rfl

theorem scoped_of_mem_statements {V : String → Prop} (hl : lookup.Speaks V)
    (ht : ∀ t ∈ g.mentionedTypes, V t.tag) (h : Form.ofGraph lookup g = .ok f) {q : Placed}
    (hq : q ∈ f.statements) : f.Declares q ∨ q.statement.Scoped V f.symbols := by
  obtain ⟨b, hb, hq⟩ := List.mem_flatMap.1 hq
  have hdeclared : ∀ p ∈ f.declared, ∀ slot ∈ p.statement.slot?,
      g.method.slotSymbol slot ∈ f.symbols := by
    intro p hp slot hslot
    obtain ⟨v, -, offset, s, -, hst⟩ := declares_of_mem_declared h hp
    rw [hst] at hslot
    obtain rfl : v.slot = slot := Option.some.inj hslot
    refine List.mem_filterMap.2 ⟨p, hp, ?_⟩
    rw [hst]
    exact congrArg some (g.method.variableSymbol_eq v)
  simp only [Block.statements, List.append_assoc, List.mem_append] at hq
  rcases hq with hq | hq
  · exact Or.inl ⟨b, hb, hq⟩
  · right
    obtain ⟨bare, preds, rfl, he | ⟨n, -, source, visible, segments, hn, hs, hbare⟩ | rfl | rfl⟩ :=
      mem_blocks_of_ofGraph h hb
    · obtain ⟨declared, rfl, -, -⟩ := Lowering.lowerEntry_eq_ok he
      simp at hq
    · have hindex := Lowering.index_of_mem_lowerBlock hs hbare
      refine scoped_of_declared hl ht h hb hindex hdeclared q ?_
      simpa [List.mem_append] using hq
    · simp at hq
    · simp at hq

/-- **The form of a graph is renamable.** -/
theorem renamable_of_ofGraph {p : Program} {exceptionBase : Option TypeRef}
    (hl : p.Encodes exceptionBase lookup)
    (ht : ∀ t ∈ g.mentionedTypes, ∃ s, Sentence.encode exceptionBase p t = .ok s)
    (h : Form.ofGraph lookup g = .ok f) : f.Renamable (p.Provides exceptionBase) where
  fixes site x hx := by
    refine if_neg fun hmem => hx ?_
    obtain ⟨v, -, -, hv⟩ := mem_locals_of_ofGraph h hmem
    rw [hv]
    simp
  slots x hx := by
    obtain ⟨q, hq, hx⟩ := List.mem_filterMap.1 hx
    obtain ⟨v, -, offset, s, -, hst⟩ := declares_of_mem_declared h hq
    obtain rfl : g.method.variableSymbol v = x := by
      rw [hst] at hx
      exact Option.some.inj hx
    refine ⟨v.slot, fun site => ?_⟩
    rw [method_of_ofGraph h]
    exact symbol_of_mem_declared h site hq hst
  statements q hq := by
    obtain hdeclares | hscoped := scoped_of_mem_statements hl.speaks
      (fun t hmem => Program.provides_tag (ht t hmem)) h hq
    · obtain ⟨b, hb, hmem⟩ := hdeclares
      obtain ⟨v, -, offset, s, -, hst⟩ := declares_of_ofGraph h hb hmem
      have hbody : q.statement.body = .declaration v.slot (g.method.variableSymbol v)
          (.atom s.name) := by rw [hst]; rfl
      exact Or.inl ⟨_, _, _, hbody, mem_symbols_of_declares h ⟨b, hb, hmem⟩ hbody⟩
    · exact Or.inr hscoped
  silent := silent_of_ofGraph h
  parameters q hq := by
    obtain ⟨placed, slot, hdeclares, hbody⟩ := exists_declares_of_mem_parameters h hq
    exact mem_symbols_of_declares h hdeclares hbody

end Form

/-- **The forms of a filled engine are renamable.** -/
theorem Engine.Filled.renamable {e : Engine} (h : e.Filled) {m : MethodRef} {f : Form}
    (hf : e.form? m = some f) : f.Renamable e.Provides := by
  cases h.builds hf with
  | leftOut => exact Form.renamable_empty _ m
  | encoded hg hl ht hf => exact Form.renamable_of_ofGraph hl ht hf

end Pathwise
