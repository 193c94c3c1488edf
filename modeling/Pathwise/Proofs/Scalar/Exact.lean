import Pathwise.Proofs.Scalar.Translation
import Pathwise.Proofs.Skeleton

/-!
# Pathwise.Proofs.Scalar.Exact

The encoding of scalar graphs is exact. A valuation of the constants describes a
store for every point of a path, its `view`: the values of the inputs and of the
slots written so far. The argument goes up in three layers.

* **instructions** -- where the terms of instructions hold, executing them leads
  from view to view (`exec_of_holds`), and a run that ends in agreement with the
  valuation makes the terms hold (`holds_of_exec`). The latter needs that nothing
  is written twice: what a run ends with is what an instruction wrote.
* **blocks** -- a block of the graph is one segment of the form, and the guards
  of its edges decide as the run does (`Encodes.guards_iff`).
* **paths** -- both meet along a path (`holds_iff_run`).
-/

namespace Pathwise

open MethodGraph (Instruction)

namespace Scalar

/-! ## execution -/

section Execution

variable {m : MethodRef} {v : Valuation} {w : List Slot} {is : List Instruction} {i : Instruction}
  {c : Lowering} {slot : Slot}

/-- The store with the values that a valuation gives to the inputs and to the slots `w`. -/
def view (m : MethodRef) (v : Valuation) (w : List Slot) : Store :=
  fun slot => if slot.isInput ∨ slot ∈ w then some (v (m.slotSymbol slot)) else none

theorem view_nil (m : MethodRef) (v : Valuation) : view m v [] = inputs m v := by
  funext slot
  simp [view, inputs]

theorem view_of_mem (h : slot.isInput ∨ slot ∈ w) :
    view m v w slot = some (v (m.slotSymbol slot)) := if_pos h

/-- Writing the value that the valuation gives extends the view. -/
theorem set_view (slot : Slot) :
    (view m v w).set slot (v (m.slotSymbol slot)) = view m v (slot :: w) := by
  funext s
  by_cases hs : s = slot
  · subst hs
    simp [Store.set, view]
  · simp [Store.set, view, hs]

/-- The slots that are written once more instructions have been executed. -/
def written : List Slot → List Instruction → List Slot
  | w, [] => w
  | w, i :: is => written ((i.result?.map (·.slot)).toList ++ w) is

theorem subset_written (w : List Slot) (is : List Instruction) : w ⊆ written w is := by
  induction is generalizing w with
  | nil => exact List.Subset.refl w
  | cons i is ih => exact List.Subset.trans (List.subset_append_right _ w) (ih _)

theorem written_append (w : List Slot) (is js : List Instruction) :
    written w (is ++ js) = written (written w is) js := by
  induction is generalizing w with
  | nil => rfl
  | cons i is ih => exact ih _

theorem disciplined_append {is js : List Instruction} :
    MethodGraph.Disciplined w (is ++ js) ↔
      MethodGraph.Disciplined w is ∧ MethodGraph.Disciplined (written w is) js := by
  induction is generalizing w with
  | nil => simp [MethodGraph.Disciplined, written]
  | cons i is ih => simp [MethodGraph.Disciplined, written, ih, and_assoc]

/-- Instructions in order, behind some that have written the slots `w`, read inputs and slots that
have been written. -/
def ReadsWritten : (w : List Slot) → List Instruction → Prop
  | _, [] => True
  | w, i :: is => (∀ x ∈ i.operands, x.slot.isInput ∨ x.slot ∈ w) ∧
      ReadsWritten ((i.result?.map (·.slot)).toList ++ w) is

theorem readsWritten_of_disciplined (h : MethodGraph.Disciplined w is) :
    ReadsWritten w is := by
  induction is generalizing w with
  | nil => trivial
  | cons i is ih => exact ⟨h.1, ih h.2.2⟩

/-- Only the last instruction can be a return. -/
def RetLast (is : List Instruction) : Prop := ∀ i ∈ is.dropLast, i.opcode ≠ .ret

theorem RetLast.of_cons (h : RetLast (i :: is)) :
    RetLast is ∧ (i.opcode = .ret → is = []) := by
  cases is with
  | nil => exact ⟨by simp [RetLast], fun _ => rfl⟩
  | cons j js =>
      simp only [RetLast, List.dropLast_cons_cons, List.forall_mem_cons] at h
      exact ⟨h.2, fun hret => absurd hret h.1⟩

/-- Where only the last instruction can be a return, none is left out. -/
theorem exec_cons (h : i.opcode = .ret → is = []) (σ : Store) :
    exec σ (i :: is) = (step σ i).bind fun τ => exec τ is := by
  rw [exec]
  split
  · next hret =>
      rw [h hret]
      simp [step, hret, exec]
  · rfl

theorem mapM_view {xs : List Variable} (h : ∀ x ∈ xs, x.slot.isInput ∨ x.slot ∈ w) :
    xs.mapM (fun x => view m v w x.slot) = some (xs.map (value m v)) := by
  induction xs with
  | nil => rfl
  | cons x xs ih =>
      rw [List.forall_mem_cons] at h
      rw [List.mapM_cons, view_of_mem h.1, ih h.2]
      rfl

/-- An instruction with a result writes what it computes. -/
theorem step_view {x : Variable} {a : Scalar} (hx : i.result? = some x)
    (ha : compute i.opcode (i.operands.map (value m v)) = some a)
    (hops : ∀ y ∈ i.operands, y.slot.isInput ∨ y.slot ∈ w) :
    step (view m v w) i = some ((view m v w).set x.slot a) := by
  unfold Instruction.result? at hx
  unfold step
  split at hx
  · contradiction
  · contradiction
  · contradiction
  · simp [mapM_view hops, ha, hx]

/-- An instruction changes at most the slot of its result. -/
theorem step_frame {σ τ : Store} (h : step σ i = some τ) (hslot : ∀ x ∈ i.result?, x.slot ≠ slot) :
    τ slot = σ slot := by
  unfold Instruction.result? at hslot
  unfold step at h
  split at h
  · rw [Option.some.inj h]
  · rw [Option.some.inj h]
  · rw [Option.some.inj h]
  · simp only [Option.bind_eq_bind, Option.bind_eq_some_iff, Option.pure_def,
      Option.some.injEq] at h
    obtain ⟨arguments, -, a, -, x, hx, rfl⟩ := h
    have hne : x.slot ≠ slot := by simpa [hx] using hslot
    exact if_neg hne.symm

/-- Disciplined instructions keep the inputs and the slots written before. -/
theorem exec_frame {σ τ : Store} (h : exec σ is = some τ) (his : MethodGraph.Disciplined w is)
    (hslot : slot.isInput ∨ slot ∈ w) :
    τ slot = σ slot := by
  induction is generalizing σ w with
  | nil => rw [Option.some.inj h]
  | cons i is ih =>
      obtain ⟨-, hresult, his⟩ := his
      rw [exec] at h
      split at h
      · rw [Option.some.inj h]
      · obtain ⟨υ, hstep, h⟩ := Option.bind_eq_some_iff.1 h
        have hkeep : υ slot = σ slot := by
          refine step_frame hstep fun x hx heq => ?_
          obtain ⟨hinput, hw⟩ := hresult x hx
          subst heq
          exact hslot.elim hinput hw
        rw [ih h his (hslot.imp_right (List.mem_append_right _)), hkeep]

/-! ## terms of a block -/

/-- The terms that an instruction asserts where it stands. -/
def plainTerms (c : Lowering) (i : Instruction) : List Sexp :=
  match c.lower i with
  | .ok (.plain statements) => statements.flatMap Statement.terms
  | _ => []

/-- The encoding of every instruction is right for a valuation. -/
def AllTranslated (c : Lowering) (v : Valuation) (is : List Instruction) : Prop :=
  ∀ i ∈ is, ∃ l, c.lower i = .ok l ∧ Translated c.method v i l

/-- One instruction: its terms hold exactly if it gives its result the value that the valuation
has for it. -/
theorem step_cases {l : Lowered} (hl : c.lower i = .ok l) (hi : Translated c.method v i l)
    (hops : ∀ x ∈ i.operands, x.slot.isInput ∨ x.slot ∈ w) :
    (∃ x a, i.result? = some x ∧
      step (view c.method v w) i = some ((view c.method v w).set x.slot a) ∧
      ((∀ e ∈ plainTerms c i, Holds v e.render) ↔ value c.method v x = a)) ∨
    (i.result? = none ∧ (∀ σ, step σ i = some σ) ∧ plainTerms c i = []) := by
  cases hi with
  | computes hx ha hs hreadable he =>
      refine Or.inl ⟨_, _, hx, step_view hx ha hops, ?_⟩
      simp [plainTerms, hl, hs, holds_render_iff hreadable, he]
  | branches ht _ _ _ _ _ _ =>
      refine Or.inr ⟨by simp [Instruction.result?, ht], fun σ => by simp [step, ht], ?_⟩
      simp [plainTerms, hl]
  | leaves hjump hs =>
      refine Or.inr ⟨?_, fun σ => ?_, ?_⟩
      · obtain hop | hop := hjump <;> simp [Instruction.result?, hop]
      · obtain hop | hop := hjump <;> simp [step, hop]
      · simpa [plainTerms, hl] using hs

/-- Where the terms of instructions hold, executing them writes what the valuation has. -/
theorem exec_of_holds (hret : RetLast is) (his : ReadsWritten w is) (hall : AllTranslated c v is)
    (h : ∀ e ∈ is.flatMap (plainTerms c), Holds v e.render) :
    exec (view c.method v w) is = some (view c.method v (written w is)) := by
  induction is generalizing w with
  | nil => rfl
  | cons i is ih =>
      obtain ⟨hret, hlast⟩ := hret.of_cons
      obtain ⟨hops, his⟩ := his
      obtain ⟨⟨l, hl, hi⟩, hall⟩ := List.forall_mem_cons.1 hall
      rw [List.flatMap_cons, List.forall_mem_append] at h
      rw [exec_cons hlast, written]
      obtain ⟨x, a, hx, hstep, hiff⟩ | ⟨hx, hstep, -⟩ := step_cases hl hi hops
      · rw [← hiff.1 h.1, value, set_view] at hstep
        rw [hx] at his ⊢
        rw [hstep]
        exact ih hret his hall h.2
      · rw [hx] at his ⊢
        rw [hstep]
        exact ih hret his hall h.2

/-- Where executing instructions writes what the valuation has, their terms hold. -/
theorem holds_of_exec {τ : Store} (hret : RetLast is) (his : MethodGraph.Disciplined w is)
    (hall : AllTranslated c v is) (h : exec (view c.method v w) is = some τ)
    (hagrees : ∀ slot ∈ written w is, ∀ a, τ slot = some a → v (c.method.slotSymbol slot) = a) :
    (∀ e ∈ is.flatMap (plainTerms c), Holds v e.render) ∧
      τ = view c.method v (written w is) := by
  induction is generalizing w with
  | nil => exact ⟨by simp, (Option.some.inj h).symm⟩
  | cons i is ih =>
      obtain ⟨hret, hlast⟩ := hret.of_cons
      obtain ⟨hops, -, his⟩ := his
      obtain ⟨⟨l, hl, hi⟩, hall⟩ := List.forall_mem_cons.1 hall
      rw [exec_cons hlast] at h
      rw [List.flatMap_cons, List.forall_mem_append]
      rw [written] at hagrees ⊢
      obtain ⟨x, a, hx, hstep, hiff⟩ | ⟨hx, hstep, hterms⟩ := step_cases hl hi hops
      · rw [hstep, Option.bind_some] at h
        rw [hx] at his hagrees ⊢
        -- nothing writes the slot again, so the final store tells what was written
        have hfinal : τ x.slot = some a := by
          rw [exec_frame h his (Or.inr List.mem_cons_self)]
          exact if_pos rfl
        have hvalue : value c.method v x = a :=
          hagrees x.slot (subset_written _ is List.mem_cons_self) a hfinal
        rw [← hvalue, value, set_view] at h
        obtain ⟨hholds, heq⟩ := ih hret his hall h hagrees
        exact ⟨⟨hiff.2 hvalue, hholds⟩, heq⟩
      · rw [hstep, Option.bind_some] at h
        rw [hx] at his hagrees ⊢
        obtain ⟨hholds, heq⟩ := ih hret his hall h hagrees
        exact ⟨⟨by simp [hterms], hholds⟩, heq⟩

end Execution

/-! ## blocks -/

section Blocks

variable {c : Lowering} {v : Valuation} {w : List Slot} {source : MethodGraph.Block}
  {is : List Instruction}

/-- The two sides of a branch. -/
def sides (c : Lowering) (i : Instruction) : List Statement :=
  match c.lower i with
  | .ok (.branch taken notTaken) => [taken, notTaken]
  | _ => []

theorem exists_lower_of_lowerAll {s out : Lowering.Segments} (h : c.lowerAll is s = .ok out) :
    ∀ i ∈ is, ∃ l, c.lower i = .ok l := by
  induction is generalizing s with
  | nil => simp
  | cons i is ih =>
      obtain ⟨d, -, hstep⟩ := Lowering.lowerAll_cons h
      rw [List.forall_mem_cons]
      obtain ⟨_, hl, h⟩ | ⟨_, _, hl, h⟩ | ⟨_, _, hl, rfl, -⟩ := hstep
      · exact ⟨⟨_, hl⟩, ih h⟩
      · exact ⟨⟨_, hl⟩, ih h⟩
      · exact ⟨⟨_, hl⟩, by simp⟩

/-- Scalar instructions add their terms to the current segment and start no other. -/
theorem lowerAll_translated {s out : Lowering.Segments} (h : c.lowerAll is s = .ok out)
    (hall : AllTranslated c v is) :
    out.complete = s.complete ∧ out.current.id = s.current.id ∧
      out.current.successors = s.current.successors ∧
      out.current.assertions.flatMap (·.statement.terms) =
        s.current.assertions.flatMap (·.statement.terms) ++ is.flatMap (plainTerms c) ∧
      out.current.branchConditions.map (·.statement) =
        s.current.branchConditions.map (·.statement) ++ (is.getLast?.map (sides c)).getD [] := by
  induction is generalizing s with
  | nil =>
      obtain rfl := Except.ok.inj h
      simp
  | cons i is ih =>
      obtain ⟨⟨l, hl, hi⟩, hall⟩ := List.forall_mem_cons.1 hall
      obtain ⟨d, hd, hstep⟩ := Lowering.lowerAll_cons h
      obtain ⟨declared, rfl, -, -⟩ := Lowering.declareAll_eq_ok hd
      obtain ⟨statements, hl', h⟩ | ⟨groups, semantics, hl', -⟩ |
        ⟨taken, notTaken, hl', rfl, rfl⟩ :=
        hstep
      · obtain ⟨hcomplete, hid, hsucc, hterms, hbranch⟩ := ih h hall
        have hlast : ((i :: is).getLast?.map (sides c)).getD [] =
            (is.getLast?.map (sides c)).getD [] := by
          cases is with
          | nil => simp [sides, hl']
          | cons j js => rw [List.getLast?_cons_cons]
        refine ⟨hcomplete, hid, hsucc, ?_, ?_⟩
        · simpa [Lowering.Segments.assert, plainTerms, hl', List.flatMap_map, Statement.link]
            using hterms
        · rw [hbranch, hlast]
          rfl
      · obtain rfl := Except.ok.inj (hl.symm.trans hl')
        cases hi
      · simp [Lowering.Segments.branch, plainTerms, sides, hl', Statement.link]

/-- **Scalar blocks**: a block of the graph becomes one segment with the terms of its instructions,
the sides of its branch and its edges. -/
theorem lowerBlock_translated {visible : List Slot} {segments : List Block}
    (h : c.lowerBlock visible source = .ok segments)
    (hall : AllTranslated c v source.instructions) :
    ∃ b, segments = [b] ∧ b.id = .node source.index ∧ c.exits source = .ok b.successors ∧
      b.assertions.flatMap (·.statement.terms) = source.instructions.flatMap (plainTerms c) ∧
      b.branchConditions.map (·.statement) = (source.terminator?.map (sides c)).getD [] := by
  obtain ⟨s, edges, hs, he, rfl⟩ := Lowering.lowerBlock_eq_ok h
  obtain ⟨hcomplete, hid, hsucc, hterms, hbranch⟩ := lowerAll_translated hs hall
  refine ⟨{ s.current with successors := s.current.successors ++ edges }, ?_, hid, ?_, ?_, ?_⟩
  · rw [hcomplete]
    rfl
  · simp [hsucc, he]
  · simpa using hterms
  · simpa [MethodGraph.Block.terminator?] using hbranch

/-- Where only the last instruction can be a return, one is if the block ends with it. -/
theorem any_ret_eq (h : RetLast is) :
    is.any (·.opcode = .ret) = is.getLast?.any (·.opcode = .ret) := by
  induction is with
  | nil => rfl
  | cons i is ih =>
      obtain ⟨hrest, hlast⟩ := h.of_cons
      cases is with
      | nil => simp
      | cons j js =>
          have hi : i.opcode ≠ .ret := fun hret => by simpa using hlast hret
          rw [List.any_cons, ih hrest, List.getLast?_cons_cons]
          simp [hi]

/-- What instructions read has been written when they are done. -/
theorem ReadsWritten.read (his : ReadsWritten w is) :
    ∀ i ∈ is, ∀ x ∈ i.operands, x.slot.isInput ∨ x.slot ∈ written w is := by
  induction is generalizing w with
  | nil => simp
  | cons i is ih =>
      obtain ⟨hops, his⟩ := his
      rw [List.forall_mem_cons]
      refine ⟨fun x hx => (hops x hx).imp_right fun hw => ?_, ih his⟩
      exact subset_written _ is (List.mem_append_right _ hw)

/-- Where a run goes on. -/
def target : Option Nat → BlockId
  | none => .regularExit
  | some n => .node n

/-- The guards of a branch are its two sides. -/
theorem guardTerms_branch {b : Block} {offset : Nat} {e e' : Sexp}
    (h : b.branchConditions.map (·.statement) =
      [.branch offset e, .assertion offset [e']]) :
    b.guardTerms .taken = [e] ∧ b.guardTerms .notTaken = [e'] := by
  have hfilter : ∀ f : Statement → Bool,
      (b.branchConditions.filter fun p => f p.statement).flatMap (·.statement.terms) =
        ([Statement.branch offset e, .assertion offset [e']].filter f).flatMap
          Statement.terms := by
    intro f
    rw [← h, List.filter_map, List.flatMap_map]
    rfl
  exact ⟨hfilter Statement.isBranch, hfilter Statement.isAssertion⟩

theorem next_of_branch {i : Instruction} {t : BranchTest} {x : Variable} {σ : Store} {a : Scalar}
    {b : Bool} {taken other : Nat} (hret : RetLast source.instructions)
    (hi : source.terminator? = some i) (ht : i.opcode = .branch t) (hx : i.operands.head? = some x)
    (ha : σ x.slot = some a) (hb : test t a = some b) (hsucc : source.successors = [taken, other]) :
    next σ source = some (if b then (0, some taken) else (1, some other)) := by
  have hany : source.instructions.any (·.opcode = .ret) = false := by
    rw [any_ret_eq hret]
    change source.terminator?.any _ = false
    simp [hi, ht]
  cases b <;> simp [next, hany, hi, ht, hx, ha, hb, hsucc]

theorem next_of_not_branch {σ : Store} (hret : RetLast source.instructions)
    (hbranch : ∀ t, source.terminator?.map Instruction.opcode ≠ some (.branch t)) :
    next σ source = some (0, if source.terminator?.map Instruction.opcode = some .ret then none
      else source.successors.head?) := by
  rw [next, any_ret_eq hret]
  change (if source.terminator?.any _ then _ else _) = _
  cases hi : source.terminator? with
  | none => simp
  | some i =>
      rw [hi] at hbranch
      by_cases hop : i.opcode = .ret
      · simp [hop]
      · simp only [Option.any_some, hop, decide_false, Bool.false_eq_true, if_false,
          Option.map_some, Option.some.injEq]
        split
        · next t ht => exact absurd (congrArg some ht) (hbranch t)
        · rfl

/-- The segment `b` encodes the block `source` of a graph, for runs that enter it with the slots `w`
written. -/
structure Encodes (c : Lowering) (v : Valuation) (w : List Slot) (source : MethodGraph.Block)
    (b : Block) : Prop where
  translated : AllTranslated c v source.instructions
  retLast : RetLast source.instructions
  disciplined : MethodGraph.Disciplined w source.instructions
  exits : c.exits source = .ok b.successors
  terms : b.assertions.flatMap (·.statement.terms) = source.instructions.flatMap (plainTerms c)
  sides : b.branchConditions.map (·.statement) = (source.terminator?.map (sides c)).getD []

/-- The guards of an edge hold exactly if it is the one along which the block is left. -/
theorem Encodes.guards_iff {b : Block} (h : Encodes c v w source b) {k : Nat} {edge : Edge}
    (hk : b.successors[k]? = some edge) :
    ∃ onward, edge.target = target onward ∧ (∀ n ∈ onward, n ∈ source.successors) ∧
      ∀ o, next (view c.method v (written w source.instructions)) source = some (k, o) ↔
        o = onward ∧ ∀ e ∈ b.guardTerms edge.condition, Holds v e.render := by
  obtain ⟨t, taken, other, hterm, hsucc, hedges⟩ | ⟨hbranch, exit, hedges, hexit⟩ :=
    Lowering.exits_cases h.exits
  · obtain ⟨i, hi, ht⟩ := Option.map_eq_some_iff.1 hterm
    have himem : i ∈ source.instructions := List.mem_of_getLast? hi
    obtain ⟨l, hl, htranslated⟩ := h.translated i himem
    cases htranslated with
    | computes hx _ _ _ _ => simp [Instruction.result?, ht] at hx
    | leaves hjump _ => simp [ht] at hjump
    | @branches t' x yes e e' ht' hx hb hreadable hreadable' he he' =>
        obtain rfl := Opcode.branch.inj (ht.symm.trans ht')
        have hslot := view_of_mem (m := c.method) (v := v)
          ((readsWritten_of_disciplined h.disciplined).read i himem _ (List.mem_of_head? hx))
        have hnext := next_of_branch h.retLast hi ht hx hslot hb hsucc
        have hsides : b.branchConditions.map (·.statement) =
            [.branch i.offset e, .assertion i.offset [e']] := by
          rw [h.sides, hi]
          simp [Scalar.sides, hl]
        obtain ⟨hyes, hno⟩ := guardTerms_branch hsides
        rw [hedges] at hk
        obtain _ | _ | k := k
        · obtain rfl := Option.some.inj hk
          refine ⟨some taken, rfl, by simp [hsucc], fun o => ?_⟩
          rw [hyes, hnext]
          cases yes <;> simp [holds_render_iff hreadable, he, eq_comm]
        · obtain rfl := Option.some.inj hk
          refine ⟨some other, rfl, by simp [hsucc], fun o => ?_⟩
          rw [hno, hnext]
          cases yes <;> simp [holds_render_iff hreadable', he', eq_comm]
        · simp at hk
  · have hnext := next_of_not_branch (σ := view c.method v (written w source.instructions))
      h.retLast hbranch
    rw [hedges] at hk
    cases k with
    | succ k => simp at hk
    | zero =>
        obtain rfl := Option.some.inj hk
        have hguards : b.guardTerms .always = [] := rfl
        rw [hguards, hnext]
        obtain ⟨rfl, hstop⟩ | ⟨-, hthrow⟩ | ⟨n, rfl, hsucc, hret⟩ := hexit
        · refine ⟨none, rfl, by simp, fun o => ?_⟩
          obtain hstop | hstop := hstop <;> simp [hstop, eq_comm]
        · -- no scalar instruction throws
          obtain ⟨i, hi, hop⟩ := Option.map_eq_some_iff.1 hthrow
          obtain ⟨l, -, htranslated⟩ := h.translated i (List.mem_of_getLast? hi)
          cases htranslated with
          | computes _ ha _ _ _ => simp [hop, compute] at ha
          | branches ht _ _ _ _ _ _ => simp [hop] at ht
          | leaves hjump _ => simp [hop] at hjump
        · exact ⟨some n, rfl, by simp [hsucc], fun o => by simp [hsucc, hret, eq_comm]⟩

end Blocks

/-! ## runs -/

section Runs

variable {g : MethodGraph} {v : Valuation} {b : MethodGraph.Block} {n : Nat} {ns : List Nat}

theorem instructionsOn_cons (g : MethodGraph) (n : Nat) (ns : List Nat) :
    g.instructionsOn (n :: ns) = g.instructionsOn ns ++ g.instructionsAt n := by
  simp [MethodGraph.instructionsOn]

theorem instructionsAt_of_getElem? (hb : g.blocks[n]? = some b) :
    g.instructionsAt n = b.instructions := by
  simp [MethodGraph.instructionsAt, hb]

/-- The slots that a path has written. -/
def writtenOn (g : MethodGraph) (path : List Nat) : List Slot := written [] (g.instructionsOn path)

theorem writtenOn_cons (hb : g.blocks[n]? = some b) :
    writtenOn g (n :: ns) = written (writtenOn g ns) b.instructions := by
  rw [writtenOn, instructionsOn_cons, written_append, instructionsAt_of_getElem? hb]
  rfl

theorem disciplined_block (hg : g.IsScalar) (hpath : g.Path (n :: ns))
    (hb : g.blocks[n]? = some b) :
    MethodGraph.Disciplined (writtenOn g ns) b.instructions := by
  have h := hg.disciplined _ hpath
  rw [instructionsOn_cons, disciplined_append, instructionsAt_of_getElem? hb] at h
  exact h.2

/-- A run goes on to a successor. -/
theorem mem_of_next {σ : Store} {k n : Nat} (h : next σ b = some (k, some n)) :
    n ∈ b.successors := by
  unfold next at h
  split at h
  · simp at h
  · split at h
    · exact List.mem_of_head? (by simpa using congrArg Prod.snd (Option.some.inj h))
    · split at h
      · simp only [Option.bind_eq_bind, Option.bind_eq_some_iff, Option.pure_def, Option.some.injEq,
          Prod.mk.injEq] at h
        obtain ⟨x, -, a, -, yes, -, m, hm, -, rfl⟩ := h
        exact List.mem_of_getElem? hm
      · exact List.mem_of_head? (by simpa using congrArg Prod.snd (Option.some.inj h))

/-- What is left of a run behind a block: it stops, or goes on with a block not entered before. -/
def Continues (g : MethodGraph) (entered : List Nat) (onward : Option Nat) (σ : Store)
    (steps : List PathStep) (exit : ExitKind) (τ : Store) : Prop :=
  match onward with
  | none => steps = [] ∧ exit = .returned ∧ τ = σ
  | some n =>
    if n ∈ entered then steps = [] ∧ exit = .loopBound ∧ τ = σ
    else Run g (n :: entered) n σ steps exit τ

theorem run_cons_iff {entered : List Nat} {n k : Nat} {σ υ : Store} {steps : List PathStep}
    {exit : ExitKind} (hb : g.blocks[n]? = some b) :
    Run g entered n σ (⟨.node n, k⟩ :: steps) exit υ ↔
      ∃ τ onward, exec σ b.instructions = some τ ∧ next τ b = some (k, onward) ∧
        Continues g entered onward τ steps exit υ := by
  constructor
  · intro h
    cases h with
    | stop hb' hexec hnext =>
        obtain rfl := Option.some.inj (hb.symm.trans hb')
        exact ⟨_, _, hexec, hnext, rfl, rfl, rfl⟩
    | again hb' hexec hnext hm =>
        obtain rfl := Option.some.inj (hb.symm.trans hb')
        exact ⟨_, _, hexec, hnext, by simp [Continues, hm]⟩
    | go hb' hexec hnext hm rest =>
        obtain rfl := Option.some.inj (hb.symm.trans hb')
        exact ⟨_, _, hexec, hnext, by simpa [Continues, hm] using rest⟩
  · rintro ⟨τ, onward, hexec, hnext, hrest⟩
    cases onward with
    | none =>
        obtain ⟨rfl, rfl, rfl⟩ := hrest
        exact .stop hb hexec hnext
    | some m =>
        by_cases hm : m ∈ entered
        · simp only [Continues, hm, if_true] at hrest
          obtain ⟨rfl, rfl, rfl⟩ := hrest
          exact .again hb hexec hnext hm
        · simp only [Continues, hm, if_false] at hrest
          exact .go hb hexec hnext hm hrest

/-- A run keeps the inputs and what was written before. -/
theorem run_frame (hg : g.IsScalar) {entered : List Nat} {σ τ : Store} {steps : List PathStep}
    {exit : ExitKind} (h : Run g entered n σ steps exit τ) (hentered : entered = n :: ns)
    (hpath : g.Path entered) {slot : Slot} (hslot : slot.isInput ∨ slot ∈ writtenOn g ns) :
    τ slot = σ slot := by
  induction h generalizing ns with
  | stop hb hexec _ | again hb hexec _ _ =>
      subst hentered
      exact exec_frame hexec (disciplined_block hg hpath hb) hslot
  | go hb hexec hnext hm _ ih =>
      subst hentered
      have hkeep := exec_frame hexec (disciplined_block hg hpath hb) hslot
      rw [ih rfl (hpath.step hb (mem_of_next hnext) hm) ?_, hkeep]
      rw [writtenOn_cons hb]
      exact hslot.imp_right fun hw => subset_written _ _ hw

end Runs

end Scalar

/-- What holds at a step of a path: the assertions of its block and the guards of its edge. -/
def Form.termsAt (f : Form) (step : PathStep) : List Sexp :=
  match f.block? step.block with
  | none => []
  | some b => b.assertions.flatMap (·.statement.terms) ++
      ((b.successors[step.edge]?).map (b.guardTerms ·.condition)).getD []

/-- What holds along a path. -/
def Form.termsAlong (f : Form) (steps : List PathStep) : List Sexp := steps.flatMap f.termsAt

theorem Form.termsAt_eq {f : Form} {id : BlockId} {b : Block} {k : Nat} {e : Edge}
    (hb : f.block? id = some b) (he : b.successors[k]? = some e) :
    f.termsAt ⟨id, k⟩ = b.assertions.flatMap (·.statement.terms) ++ b.guardTerms e.condition := by
  simp [termsAt, hb, he]

namespace Scalar

section Forms

variable {p : Program} {exceptionBase : Option TypeRef} {lookup : SentenceLookup}
  {g : MethodGraph} {f : Form} {v : Valuation}

/-- The segments of a form on a path encode the blocks of the graph. -/
theorem encodes_of_block? (hl : p.Encodes exceptionBase lookup)
    (hf : Form.ofGraph lookup g = .ok f) (hg : g.IsScalar) (hv : Fits g v) {n : Nat}
    {ns : List Nat} (hpath : g.Path (n :: ns)) {b : Block} (hb : f.block? (.node n) = some b) :
    ∃ source, g.blocks[n]? = some source ∧
      Encodes (Lowering.mk g.method lookup) v (writtenOn g ns) source b := by
  obtain ⟨hmem, hid⟩ := Form.of_block?_eq_some hb
  obtain ⟨-, source, visible, segments, bare, preds, hsource, -, hsegments, hbare, rfl⟩ :=
    Form.segment_of_ofGraph hf hmem (n := n) (by rw [hid]; rfl)
  have hat := instructionsAt_of_getElem? hsource
  have hon : ∀ i ∈ source.instructions, i ∈ g.instructionsOn (n :: ns) := by
    intro i hi
    rw [instructionsOn_cons, hat]
    exact List.mem_append_right _ hi
  have hall : AllTranslated (Lowering.mk g.method lookup) v source.instructions := by
    intro i hi
    obtain ⟨s, edges, hs, -, -⟩ := Lowering.lowerBlock_eq_ok hsegments
    obtain ⟨l, hlower⟩ := exists_lower_of_lowerAll hs i hi
    refine ⟨l, hlower, translated_lower hl (hg.scalar _ hpath i (hon i hi)) ?_ hlower⟩
    intro x hx
    have hfit := hv _ hpath i (hon i hi) x hx
    rwa [MethodRef.variableSymbol_eq] at hfit
  obtain ⟨b, rfl, -, hexits, hterms, hsides⟩ := lowerBlock_translated hsegments hall
  obtain rfl := List.mem_singleton.1 hbare
  refine ⟨source, hsource, hall, ?_, disciplined_block hg hpath hsource, hexits, hterms, hsides⟩
  have hret := hg.ret_last n ns hpath
  rwa [hat] at hret

/-- Where a path ends along an edge, so does a run. -/
theorem continues_of_leave {path : List Nat} {e : Edge} {onward : Option Nat} {exit : ExitKind}
    (htarget : e.target = target onward)
    (h : Form.turn (path.map .node) e = .leave exit) (σ : Store) :
    Continues g path onward σ [] exit σ := by
  cases onward with
  | none =>
      simp only [Form.turn, htarget, target, BlockId.regularExit, Form.Turn.leave.injEq] at h
      exact ⟨rfl, h.symm, rfl⟩
  | some n =>
      by_cases hn : n ∈ path
      · simp only [Form.turn, htarget, target, BlockId.node, List.mem_map, BlockIndex.node.injEq,
          exists_eq_right, hn, if_true, ne_eq, not_true, if_false, Form.Turn.leave.injEq] at h
        simp [Continues, hn, h]
      · simp [Form.turn, htarget, target, BlockId.node, hn] at h

/-- Where a path goes on along an edge, it enters a block for the first time. -/
theorem exists_of_go {path : List Nat} {e : Edge} {onward : Option Nat} {onPath : List BlockIndex}
    (htarget : e.target = target onward) (h : Form.turn (path.map .node) e = .go onPath) :
    ∃ n, onward = some n ∧ n ∉ path ∧ onPath = (n :: path).map .node := by
  cases onward with
  | none => simp [Form.turn, htarget, target, BlockId.regularExit] at h
  | some n =>
      by_cases hn : n ∈ path
      · simp [Form.turn, htarget, target, BlockId.node, hn] at h
      · simp only [Form.turn, htarget, target, BlockId.node, List.mem_map, BlockIndex.node.injEq,
          exists_eq_right, hn, ne_eq, not_true, if_false, Form.Turn.go.injEq] at h
        exact ⟨n, rfl, hn, h.symm⟩

theorem agrees_view (m : MethodRef) (v : Valuation) (w : List Slot) : Agrees m v (view m v w) := by
  intro slot a h
  by_cases hslot : slot.isInput ∨ slot ∈ w
  · rw [view_of_mem hslot] at h
    exact Option.some.inj h
  · simp [view, hslot] at h

/-- A run that ends in agreement with a valuation is so behind each block. -/
theorem agrees_of_continues (hg : g.IsScalar) {n k : Nat} {ns : List Nat} {onward : Option Nat}
    {source : MethodGraph.Block} {σ τ : Store} {steps : List PathStep} {exit : ExitKind}
    (hpath : g.Path (n :: ns)) (hb : g.blocks[n]? = some source)
    (hnext : next σ source = some (k, onward))
    (h : Continues g (n :: ns) onward σ steps exit τ) (hagrees : Agrees g.method v τ) :
    ∀ slot ∈ writtenOn g (n :: ns), ∀ a, σ slot = some a →
      v (g.method.slotSymbol slot) = a := by
  intro slot hslot a ha
  have hkeep : τ slot = σ slot := by
    cases onward with
    | none => rw [h.2.2]
    | some m =>
        by_cases hm : m ∈ n :: ns
        · simp only [Continues, hm, if_true] at h
          rw [h.2.2]
        · simp only [Continues, hm, if_false] at h
          exact run_frame hg h rfl (hpath.step hb (mem_of_next hnext) hm) (Or.inr hslot)
  exact hagrees slot a (hkeep.trans ha)

/-- One block: if the rest of the path is exact, so is the path from this block on. -/
theorem Encodes.step_iff {b : Block} {source : MethodGraph.Block} {n k : Nat} {ns : List Nat}
    {edge : Edge} {onward : Option Nat} {steps : List PathStep} {exit : ExitKind} {rest : Prop}
    (hg : g.IsScalar) (hpath : g.Path (n :: ns)) (hb : g.blocks[n]? = some source)
    (h : Encodes (Lowering.mk g.method lookup) v (writtenOn g ns) source b)
    (hnext : ∀ o, next (view g.method v (writtenOn g (n :: ns))) source = some (k, o) ↔
      o = onward ∧ ∀ e ∈ b.guardTerms edge.condition, Holds v e.render)
    (hrest : rest ↔ ∃ τ, Continues g (n :: ns) onward (view g.method v (writtenOn g (n :: ns)))
      steps exit τ ∧ Agrees g.method v τ) :
    ((∀ e ∈ b.assertions.flatMap (·.statement.terms) ++ b.guardTerms edge.condition,
        Holds v e.render) ∧ rest) ↔
      ∃ τ, Run g (n :: ns) n (view g.method v (writtenOn g ns)) (⟨.node n, k⟩ :: steps) exit τ ∧
        Agrees g.method v τ := by
  rw [List.forall_mem_append, h.terms, hrest]
  constructor
  · rintro ⟨⟨hterms, hguards⟩, τ, hcontinues, hagrees⟩
    have hexec := exec_of_holds h.retLast (readsWritten_of_disciplined h.disciplined) h.translated
      hterms
    rw [← writtenOn_cons hb] at hexec
    exact ⟨τ, (run_cons_iff hb).2 ⟨_, onward, hexec, (hnext onward).2 ⟨rfl, hguards⟩, hcontinues⟩,
      hagrees⟩
  · rintro ⟨τ, hrun, hagrees⟩
    obtain ⟨σ, o, hexec, ho, hcontinues⟩ := (run_cons_iff hb).1 hrun
    have hbehind := agrees_of_continues hg hpath hb ho hcontinues hagrees
    rw [writtenOn_cons hb] at hbehind
    obtain ⟨hterms, hσ⟩ := holds_of_exec h.retLast h.disciplined h.translated hexec hbehind
    rw [← writtenOn_cons hb] at hσ
    subst hσ
    obtain ⟨rfl, hguards⟩ := (hnext o).1 ho
    exact ⟨⟨hterms, hguards⟩, τ, hcontinues, hagrees⟩

/-- From a block on: the terms along a path hold exactly if the run takes that path. -/
theorem holds_iff_run (hl : p.Encodes exceptionBase lookup) (hf : Form.ofGraph lookup g = .ok f)
    (hg : g.IsScalar) (hv : Fits g v) {onPath : List BlockIndex} {id : BlockId}
    {steps : List PathStep} {exit : ExitKind} (h : f.Trail onPath id steps exit) {n : Nat}
    {ns : List Nat} (hid : id = .node n) (hon : onPath = (n :: ns).map .node)
    (hpath : g.Path (n :: ns)) :
    (∀ e ∈ f.termsAlong steps, Holds v e.render) ↔
      ∃ τ, Run g (n :: ns) n (view g.method v (writtenOn g ns)) steps exit τ ∧
        Agrees g.method v τ := by
  induction h generalizing n ns with
  | leave hb he ht =>
      subst hid hon
      obtain ⟨source, hsource, hencodes⟩ := encodes_of_block? hl hf hg hv hpath hb
      obtain ⟨onward, htarget, -, hnext⟩ := hencodes.guards_iff he
      rw [← writtenOn_cons hsource] at hnext
      rw [Form.termsAlong, List.flatMap_singleton, Form.termsAt_eq hb he,
        ← hencodes.step_iff hg hpath hsource hnext (iff_of_true trivial ?_), and_true]
      exact ⟨_, continues_of_leave htarget ht _, agrees_view g.method v _⟩
  | go hb he ht rest ih =>
      subst hid hon
      obtain ⟨source, hsource, hencodes⟩ := encodes_of_block? hl hf hg hv hpath hb
      obtain ⟨onward, htarget, hsucc, hnext⟩ := hencodes.guards_iff he
      obtain ⟨m, rfl, hm, hon⟩ := exists_of_go htarget ht
      rw [← writtenOn_cons hsource] at hnext
      rw [Form.termsAlong, List.flatMap_cons, List.forall_mem_append, Form.termsAt_eq hb he]
      refine hencodes.step_iff hg hpath hsource hnext ?_
      simp only [Continues, hm, if_false]
      exact ih htarget hon (hpath.step hsource (hsucc m rfl) hm)

/-- A path of a form starts at the entry, which asserts nothing and leads to the first block. -/
theorem trail_entry (hf : Form.ofGraph lookup g = .ok f) {steps : List PathStep} {exit : ExitKind}
    (h : f.Trail [] .entry steps exit) :
    ∃ rest, steps = ⟨.entry, 0⟩ :: rest ∧ f.termsAlong steps = f.termsAlong rest ∧
      f.Trail [.node 0] (.node 0) rest exit := by
  have hentry : ∀ {b k e}, f.block? .entry = some b → b.successors[k]? = some e →
      k = 0 ∧ e = ⟨.always, .node 0⟩ ∧ f.termsAt ⟨.entry, k⟩ = [] := by
    intro b k e hb he
    obtain ⟨hmem, hid⟩ := Form.of_block?_eq_some hb
    obtain ⟨bare, preds, hbare, rfl⟩ := Form.entry_of_ofGraph hf hmem (by rw [hid]; rfl)
    obtain ⟨declared, rfl, -, -⟩ := Lowering.lowerEntry_eq_ok hbare
    obtain ⟨rfl, rfl⟩ : k = 0 ∧ ⟨.always, .node 0⟩ = e := by
      simpa [List.getElem?_singleton] using he
    exact ⟨rfl, rfl, by rw [Form.termsAt_eq hb he]; rfl⟩
  cases h with
  | leave hb he ht =>
      obtain ⟨-, rfl, -⟩ := hentry hb he
      contradiction
  | go hb he ht rest =>
      obtain ⟨rfl, rfl, hterms⟩ := hentry hb he
      obtain rfl := Form.Turn.go.inj ht
      exact ⟨_, rfl, by simp [Form.termsAlong, hterms], rest⟩

/-- **Exactness of the scalar encoding**: along a path of a form, a valuation makes everything true
exactly if the run of the graph on the inputs that it gives takes this path, stops as it does, and
computes for every slot the value that the valuation has for its constant. -/
theorem termsAlong_hold_iff_run (hl : p.Encodes exceptionBase lookup)
    (hf : Form.ofGraph lookup g = .ok f) (hg : g.IsScalar) (hv : Fits g v) {limit : Nat}
    {paths : List Skeleton} (hpaths : f.paths limit = .ok paths) {P : Skeleton}
    (hP : P ∈ paths) :
    (∀ e ∈ f.termsAlong P.steps, Holds v e.render) ↔
      ∃ steps τ, P.steps = ⟨.entry, 0⟩ :: steps ∧
        Run g [0] 0 (inputs g.method v) steps P.exit τ ∧ Agrees g.method v τ := by
  obtain ⟨rest, hsteps, hterms, htrail⟩ := trail_entry hf (Form.trail_of_mem_paths hpaths hP)
  have hstart : view g.method v (writtenOn g []) = inputs g.method v := view_nil g.method v
  rw [hterms, holds_iff_run hl hf hg hv htrail rfl rfl .start, hstart, hsteps]
  constructor
  · rintro ⟨τ, hrun, hagrees⟩
    exact ⟨rest, τ, rfl, hrun, hagrees⟩
  · rintro ⟨steps, τ, heq, hrun, hagrees⟩
    obtain rfl := (List.cons.inj heq).2
    exact ⟨τ, hrun, hagrees⟩

end Forms

namespace Sample

/-- A method with a loop. -/
def method : MethodRef := .static (.named "Sample" "Scalars" []) "Raise" [.int32] .int32

def start : Variable := ⟨.parameter 0, .int32⟩
def bound : Variable := ⟨.stack 0, .int32⟩
def below : Variable := ⟨.stack 1, .bool⟩
def sum : Variable := ⟨.localVar 0, .int32⟩

/-- Adds the bound to a start below it, and repeats the test for any other start. -/
def graph : MethodGraph :=
  { method
    blocks := [
      { index := 0
        instructions := [⟨0, .constant (.int 3), some bound, []⟩,
          ⟨1, .compare .lt, some below, [start, bound]⟩, ⟨2, .branch .ifTrue, none, [below]⟩]
        successors := [1, 0] },
      { index := 1
        instructions := [⟨3, .binary .add, some sum, [start, bound]⟩, ⟨4, .ret, none, [sum]⟩]
        successors := [] } ] }

/-- The form of the graph. -/
def form : Form := (Form.ofGraph (Program.empty.lookup none) graph).toOption.getD default

/-- The path of a start below the bound. -/
def returning : Skeleton := ⟨[⟨.entry, 0⟩, ⟨.node 0, 0⟩, ⟨.node 1, 0⟩], .returned⟩

/-- The path of any other start, up to where it repeats. -/
def repeating : Skeleton := ⟨[⟨.entry, 0⟩, ⟨.node 0, 1⟩], .loopBound⟩

/-- What the constants are if the start is 2. -/
def valuation : Valuation := fun symbol =>
  if symbol = method.slotSymbol start.slot then .int 2
  else if symbol = method.slotSymbol bound.slot then .int 3
  else if symbol = method.slotSymbol below.slot then .bool true
  else .int 5

theorem path_cases {path : List Nat} (h : graph.Path path) : path = [0] ∨ path = [1, 0] := by
  induction h with
  | start => exact Or.inl rfl
  | step _ hb hm hnew ih =>
      obtain ih | ih := ih <;> obtain ⟨rfl, rfl⟩ := List.cons.inj ih
      · obtain rfl := Option.some.inj hb
        rw [List.mem_singleton] at hnew
        simp_all
      · obtain rfl := Option.some.inj hb
        contradiction

theorem isScalar_graph : graph.IsScalar where
  scalar path h := by
    obtain rfl | rfl := path_cases h <;>
      simp [MethodGraph.instructionsOn, MethodGraph.instructionsAt, graph, Instruction.IsScalar,
        start, bound, below, sum]
  ret_last n path h := by
    obtain h | h := path_cases h <;> obtain ⟨rfl, rfl⟩ := List.cons.inj h <;> decide
  disciplined path h := by
    obtain rfl | rfl := path_cases h <;>
      simp [MethodGraph.instructionsOn, MethodGraph.instructionsAt, graph,
        MethodGraph.Disciplined, Instruction.result?, Slot.isInput, start, bound, below, sum]

theorem fits_valuation : Fits graph valuation := by
  intro path h
  obtain rfl | rfl := path_cases h <;> decide +kernel

/-- The valuation satisfies the path that returns, so the run on its inputs takes this path. -/
theorem run_returning : Form.ofGraph (Program.empty.lookup none) graph = .ok form ∧
    form.paths 2 = .ok [returning, repeating] ∧ graph.IsScalar ∧ Fits graph valuation ∧
    (∀ e ∈ form.termsAlong returning.steps, Holds valuation e.render) ∧
    ∃ steps τ, returning.steps = ⟨.entry, 0⟩ :: steps ∧
      Run graph [0] 0 (inputs method valuation) steps .returned τ ∧
      Agrees method valuation τ := by
  have hform : Form.ofGraph (Program.empty.lookup none) graph = .ok form := by decide +kernel
  have hpaths : form.paths 2 = .ok [returning, repeating] := by decide +kernel
  have hholds : ∀ e ∈ form.termsAlong returning.steps, Holds valuation e.render := by
    unfold Holds
    decide +kernel
  exact ⟨hform, hpaths, isScalar_graph, fits_valuation, hholds,
    (termsAlong_hold_iff_run (Program.encodes_lookup _ none) hform isScalar_graph fits_valuation
      hpaths List.mem_cons_self).1 hholds⟩

end Sample

end Scalar
end Pathwise
