import Pathwise.Proofs.Coverable.Run
import Pathwise.Proofs.Scalar.Exact

/-!
# Pathwise.Proofs.Scalar.StraightLine

Integer code without branches, which may also write static fields. A slot has one
constant for the whole path, so what is asserted can only describe an execution in
which every slot that has a value keeps it: a valuation makes the terms true exactly if
the execution agrees with it at every point (`holds_iff_agrees`). Parameters, locals
and the stack keep their values by the contract of the front end. Static fields need
not; a counter that is raised asserts that a number is its own successor
(`Sample.Counter.contradictory`).

Where static fields are not written behind another access to them, no value is lost,
and the final values of any execution make the terms true (`holds_of_final`).
-/

namespace Pathwise

namespace MethodGraph

/-- An assignment, a constant or an operation, on integers. -/
def Instruction.IsArithmetic (i : Instruction) : Prop :=
  (i.opcode = .assign ∨ (∃ literal, i.opcode = .constant literal) ∨ ∃ op, i.opcode = .binary op) ∧
    ∀ x ∈ i.variables, x.type = .int32

/-- Instructions in order, behind some that have written the slots `written`: parameters are only
read, and any other slot of the method is written once and read behind that. Static fields are read
and written freely. -/
def KeepsContract : (written : List Slot) → List Instruction → Prop
  | _, [] => True
  | written, i :: is =>
    (∀ x ∈ i.operands, x.slot.isInput ∨ x.slot ∈ written) ∧
    (∀ x ∈ i.result?, x.slot.isLocal → ¬x.slot.isInput ∧ x.slot ∉ written) ∧
    KeepsContract ((i.result?.map (·.slot)).toList ++ written) is

/-- Instructions in order, behind some that have accessed the slots `seen`: no static field is
written behind another access to it. -/
def FieldsFirst : (seen : List Slot) → List Instruction → Prop
  | _, [] => True
  | seen, i :: is =>
    (∀ x ∈ i.result?, ¬x.slot.isLocal → x.slot ∉ i.operands.map (·.slot) ++ seen) ∧
    FieldsFirst (i.variables.map (·.slot) ++ seen) is

/-- The slots that instructions read or write. -/
def accessed (code : List Instruction) : List Slot := code.flatMap fun i => i.variables.map (·.slot)

/-- A graph of one block: integer code that keeps the contract, and a return. -/
structure StraightLine (g : MethodGraph) (code : List Instruction) : Prop where
  block : ∃ b last, g.blocks = [b] ∧ b.instructions = code ++ [last] ∧ last.opcode = .ret
  arithmetic : ∀ i ∈ code, i.IsArithmetic
  contract : KeepsContract [] code

end MethodGraph

open MethodGraph (Instruction)

namespace Scalar

/-- Integers for all constants. -/
def integers (v : String → Int) : Valuation := fun symbol => .int (v symbol)

/-- The store in which a run starts if the inputs have the given values. -/
def initial (ρ : Slot → Int) : Store :=
  fun slot => if slot.isInput then some (.int (ρ slot)) else none

/-! ## instructions -/

section Instructions

variable {p : Program} {exceptionBase : Option TypeRef} {lookup : SentenceLookup}
  {m : MethodRef} {v : Valuation} {i : Instruction} {l : Lowered} {σ τ : Store}

theorem isScalar_of_isArithmetic (h : i.IsArithmetic) : i.IsScalar := by
  obtain ⟨hop, htype⟩ := h
  have hoperand : ∀ x ∈ i.operands, x.type = .int32 := fun x hx =>
    htype x (List.mem_append_left _ hx)
  have htarget : ∀ x ∈ i.target, x.type = .int32 := fun x hx =>
    htype x (List.mem_append_right _ (Option.mem_toList.2 hx))
  refine ⟨fun x hx y hy => (hoperand x hx).trans (hoperand y hy).symm, ?_⟩
  obtain hop | ⟨literal, hop⟩ | ⟨op, hop⟩ := hop <;> simp only [hop]
  · exact fun x hx y hy => (hoperand x hx).trans (htarget y hy).symm
  · exact htarget

theorem ne_ret_of_isArithmetic (h : i.IsArithmetic) : i.opcode ≠ .ret := by
  obtain ⟨hop | ⟨literal, hop⟩ | ⟨op, hop⟩, -⟩ := h <;> simp [hop]

theorem result?_of_isArithmetic (h : i.IsArithmetic) : i.result? = i.target := by
  obtain ⟨hop | ⟨literal, hop⟩ | ⟨op, hop⟩, -⟩ := h <;> simp [Instruction.result?, hop]

theorem translated_of_isArithmetic (hl : p.Encodes exceptionBase lookup) (hi : i.IsArithmetic)
    (h : (Lowering.mk m lookup).lower i = .ok l) (v : String → Int) :
    Translated m (integers v) i l :=
  translated_lower hl (isScalar_of_isArithmetic hi) (fun x hx => (hi.2 x hx).symm) h

theorem mem_variables_of_result? {x : Variable} (h : i.result? = some x) : x ∈ i.variables := by
  unfold Instruction.result? at h
  split at h
  · contradiction
  · contradiction
  · contradiction
  · exact List.mem_append_right _ (Option.mem_toList.2 h)

/-- Integers are computed from integers. -/
theorem exists_compute (hl : p.Encodes exceptionBase lookup) (hi : i.IsArithmetic)
    (h : (Lowering.mk m lookup).lower i = .ok l) {args : List Int}
    (hargs : args.length = i.operands.length) :
    ∃ x n, i.result? = some x ∧ compute i.opcode (args.map .int) = some (.int n) := by
  obtain ⟨hop | ⟨literal, hop⟩ | ⟨op, hop⟩, htype⟩ := hi
  · simp only [Lowering.lower, hop, bind_eq_ok, pure_eq_ok] at h
    obtain ⟨x, hx, y, hy, -⟩ := h
    obtain ⟨ys, hops⟩ := operands_eq_cons hy
    have htarget := Lowering.target_eq_ok hx
    cases args with
    | nil => simp [hops] at hargs
    | cons a args =>
        exact ⟨x, a, by simp [Instruction.result?, hop, htarget], by simp [hop, compute]⟩
  · simp only [Lowering.lower, hop, Lowering.apply, bind_eq_ok, pure_eq_ok, mapError_eq_ok] at h
    obtain ⟨x, hx, s, hs, e, he, rfl⟩ := h
    have htarget := Lowering.target_eq_ok hx
    have hint : x.type = .int32 := htype x (by simp [Instruction.variables, htarget])
    have hencode := hl _ _ hs
    rw [hint] at hencode
    obtain rfl := Except.ok.inj hencode
    cases literal with
    | int k => exact ⟨x, k, by simp [Instruction.result?, hop, htarget], by simp [hop, compute]⟩
    | _ => contradiction
  · simp only [Lowering.lower, hop, Lowering.defining, bind_eq_ok, pure_eq_ok] at h
    obtain ⟨a, ha, b, hb, s, -, e', -, e, -, st, ⟨x, hx, -⟩, -⟩ := h
    obtain ⟨xs, hops⟩ := operands_eq_cons_cons ha hb
    have htarget := Lowering.target_eq_ok hx
    obtain _ | ⟨k, _ | ⟨n, args⟩⟩ := args
    · simp [hops] at hargs
    · simp [hops] at hargs
    · exact ⟨x, arithmetic op k n, by simp [Instruction.result?, hop, htarget],
        by simp [hop, compute]⟩

/-- An instruction with a result writes what it computes from the values of its operands. -/
theorem step_eq_some_iff {x : Variable} (hx : i.result? = some x) :
    step σ i = some τ ↔ ∃ args a, i.operands.mapM (fun y => σ y.slot) = some args ∧
      compute i.opcode args = some a ∧ τ = σ.set x.slot a := by
  unfold Instruction.result? at hx
  unfold step
  split at hx
  · contradiction
  · contradiction
  · contradiction
  · simp only [hx, Option.bind_eq_bind, Option.bind_some, Option.bind_eq_some_iff, Option.pure_def,
      Option.some.injEq, eq_comm (a := τ), exists_and_left]

theorem map_value_of_mapM {xs : List Variable} {args : List Scalar}
    (h : xs.mapM (fun x => σ x.slot) = some args)
    (hagrees : ∀ x ∈ xs, ∀ a, σ x.slot = some a → v (m.slotSymbol x.slot) = a) :
    xs.map (value m v) = args := by
  induction xs generalizing args with
  | nil => exact Option.some.inj h
  | cons x xs ih =>
      rw [List.forall_mem_cons] at hagrees
      simp only [List.mapM_cons, Option.bind_eq_bind, Option.bind_eq_some_iff, Option.pure_def,
        Option.some.injEq] at h
      obtain ⟨a, ha, rest, hrest, rfl⟩ := h
      rw [List.map_cons, ih hrest hagrees.2, value, hagrees.1 a ha]

/-- The term of an instruction is true if a valuation has the values that its operands have before
it, and the value that its result has behind it. -/
theorem holds_of_step {c : Lowering} (hlower : c.lower i = .ok l) (hi : Translated c.method v i l)
    (h : step σ i = some τ)
    (hoperands : ∀ y ∈ i.operands, ∀ a, σ y.slot = some a → v (c.method.slotSymbol y.slot) = a)
    (hresult : ∀ x ∈ i.result?, ∀ a, τ x.slot = some a → v (c.method.slotSymbol x.slot) = a) :
    ∀ e ∈ plainTerms c i, Holds v e.render := by
  cases hi with
  | @computes x a e s hx ha hs hreadable he =>
      obtain ⟨args, b, hargs, hb, rfl⟩ := (step_eq_some_iff hx).1 h
      obtain rfl := map_value_of_mapM hargs hoperands
      obtain rfl : a = b := Option.some.inj (ha.symm.trans hb)
      have hvalue : value c.method v x = a := hresult x hx a (if_pos rfl)
      simp [plainTerms, hlower, hs, holds_render_iff hreadable, he, hvalue]
  | branches => simp [plainTerms, hlower]
  | leaves hjump hs =>
      have hnone : plainTerms c i = [] := by simpa [plainTerms, hlower] using hs
      simp [hnone]

end Instructions

/-! ## executions -/

section Executions

variable {c : Lowering} {v : Valuation} {w seen : List Slot} {code : List Instruction}
  {σ τ : Store}

theorem exec_append {front : List Instruction} (hret : ∀ i ∈ front, i.opcode ≠ .ret) (σ : Store)
    (back : List Instruction) :
    exec σ (front ++ back) = (exec σ front).bind fun τ => exec τ back := by
  induction front generalizing σ with
  | nil => rfl
  | cons i front ih =>
      rw [List.forall_mem_cons] at hret
      rw [List.cons_append, exec, exec, if_neg hret.1, if_neg hret.1, Option.bind_assoc]
      simp only [ih hret.2]

theorem ReadsWritten.of_append {front back : List Instruction}
    (h : ReadsWritten w (front ++ back)) : ReadsWritten w front := by
  induction front generalizing w with
  | nil => trivial
  | cons i front ih => exact ⟨h.1, ih h.2⟩

/-- **One constant for each slot**: the terms of instructions are true exactly if their execution,
from the inputs that the valuation gives, agrees with the valuation at every point. -/
theorem holds_iff_agrees (hret : ∀ i ∈ code, i.opcode ≠ .ret) (hread : ReadsWritten [] code)
    (hall : AllTranslated c v code) :
    (∀ e ∈ code.flatMap (plainTerms c), Holds v e.render) ↔
      ∀ front, front <+: code →
        ∃ σ, exec (inputs c.method v) front = some σ ∧ Agrees c.method v σ := by
  constructor
  · rintro h front ⟨back, rfl⟩
    have hfront : ∀ i ∈ front, i ∈ front ++ back := fun i => List.mem_append_left back
    rw [List.flatMap_append, List.forall_mem_append] at h
    have hexec := exec_of_holds (fun i hi => hret i (hfront i (List.mem_of_mem_dropLast hi)))
      hread.of_append (fun i hi => hall i (hfront i hi)) h.1
    rw [view_nil] at hexec
    exact ⟨_, hexec, agrees_view c.method v _⟩
  · intro h e hmem
    obtain ⟨i, hi, he⟩ := List.mem_flatMap.1 hmem
    obtain ⟨l, hlower, htranslated⟩ := hall i hi
    obtain ⟨front, back, rfl⟩ := List.append_of_mem hi
    obtain ⟨σ, hσ, hbefore⟩ := h front ⟨i :: back, rfl⟩
    obtain ⟨τ, hτ, hbehind⟩ := h (front ++ [i]) ⟨back, by simp⟩
    have hstep : step σ i = some τ := by
      have hfront : ∀ j ∈ front, j.opcode ≠ .ret := fun j hj => hret j (by simp [hj])
      rw [exec_append hfront, hσ, Option.bind_some, exec, if_neg (hret i (by simp))] at hτ
      obtain ⟨τ', hstep, hτ'⟩ := Option.bind_eq_some_iff.1 hτ
      rw [hstep]
      exact hτ'
    exact holds_of_step hlower htranslated hstep (fun y _ a => hbefore y.slot a)
      (fun x _ a => hbehind x.slot a) e he

theorem readsWritten_of_keepsContract (h : MethodGraph.KeepsContract w code) :
    ReadsWritten w code := by
  induction code generalizing w with
  | nil => trivial
  | cons i code ih => exact ⟨h.1, ih h.2.2⟩

/-- An instruction keeps the value of a slot that has been accessed. -/
theorem step_keeps {i : Instruction} (h : step σ i = some τ)
    (hlocal : ∀ x ∈ i.result?, x.slot.isLocal → ¬x.slot.isInput ∧ x.slot ∉ w)
    (hfield : ∀ x ∈ i.result?, ¬x.slot.isLocal → x.slot ∉ seen) {slot : Slot}
    (hslot : slot.isInput ∨ slot ∈ w) (hseen : slot ∈ seen) : τ slot = σ slot := by
  refine step_frame h fun x hx heq => ?_
  subst heq
  by_cases hx' : x.slot.isLocal
  · exact hslot.elim (hlocal x hx hx').1 (hlocal x hx hx').2
  · exact hfield x hx hx' hseen

/-- So do instructions in order, if no static field is written behind another access to it. -/
theorem exec_keeps (h : exec σ code = some τ) (hcontract : MethodGraph.KeepsContract w code)
    (hfields : MethodGraph.FieldsFirst seen code) {slot : Slot} (hslot : slot.isInput ∨ slot ∈ w)
    (hseen : slot ∈ seen) : τ slot = σ slot := by
  induction code generalizing σ w seen with
  | nil => rw [Option.some.inj h]
  | cons i code ih =>
      obtain ⟨-, hlocal, hcontract⟩ := hcontract
      obtain ⟨hfield, hfields⟩ := hfields
      rw [exec] at h
      split at h
      · rw [Option.some.inj h]
      · obtain ⟨υ, hstep, h⟩ := Option.bind_eq_some_iff.1 h
        rw [ih h hcontract hfields (hslot.imp_right (List.mem_append_right _))
          (List.mem_append_right _ hseen),
          step_keeps hstep hlocal hfield hslot (List.mem_append_right _ hseen)]

/-- **Final values**: where no value is lost, what an execution ends with makes the terms true. -/
theorem holds_of_final (hret : ∀ i ∈ code, i.opcode ≠ .ret)
    (hcontract : MethodGraph.KeepsContract w code) (hfields : MethodGraph.FieldsFirst seen code)
    (hall : AllTranslated c v code) (h : exec σ code = some τ)
    (hagrees : ∀ slot ∈ MethodGraph.accessed code, ∀ a, τ slot = some a →
      v (c.method.slotSymbol slot) = a) :
    ∀ e ∈ code.flatMap (plainTerms c), Holds v e.render := by
  induction code generalizing σ w seen with
  | nil => simp
  | cons i code ih =>
      obtain ⟨hops, hlocal, hcontract⟩ := hcontract
      obtain ⟨hfield, hfields⟩ := hfields
      rw [List.forall_mem_cons] at hret
      obtain ⟨⟨l, hlower, htranslated⟩, hall⟩ := List.forall_mem_cons.1 hall
      rw [MethodGraph.accessed, List.flatMap_cons, List.forall_mem_append] at hagrees
      rw [exec, if_neg hret.1] at h
      obtain ⟨υ, hstep, h⟩ := Option.bind_eq_some_iff.1 h
      -- what the slots of this instruction have behind it, they have in the end
      have hlast : ∀ x ∈ i.variables, x.slot.isInput ∨
          x.slot ∈ (i.result?.map (·.slot)).toList ++ w → τ x.slot = υ x.slot := fun x hx hslot =>
        exec_keeps h hcontract hfields hslot (List.mem_append_left _ (List.mem_map_of_mem hx))
      rw [List.flatMap_cons, List.forall_mem_append]
      refine ⟨holds_of_step hlower htranslated hstep (fun y hy a ha => ?_) (fun x hx a ha => ?_),
        ih hret.2 hcontract hfields hall h hagrees.2⟩
      · have hmem : y ∈ i.variables := List.mem_append_left _ hy
        refine hagrees.1 y.slot (List.mem_map_of_mem hmem) a ?_
        rw [hlast y hmem ((hops y hy).imp_right (List.mem_append_right _)),
          step_keeps hstep hlocal hfield (hops y hy)
            (List.mem_append_left _ (List.mem_map_of_mem hy)), ha]
      · have hmem : x ∈ i.variables := mem_variables_of_result? hx
        refine hagrees.1 x.slot (List.mem_map_of_mem hmem) a ?_
        rw [hlast x hmem (Or.inr (by simp [Option.mem_def.1 hx])), ha]

/-- Integer code in which every instruction has an encoding. -/
def Lowers (c : Lowering) (code : List Instruction) : Prop :=
  ∀ i ∈ code, i.IsArithmetic ∧ ∃ l, c.lower i = .ok l

/-- Inputs and written slots have integers. -/
def Defined (w : List Slot) (σ : Store) : Prop :=
  ∀ slot, slot.isInput ∨ slot ∈ w → ∃ n, σ slot = some (.int n)

theorem defined_initial (ρ : Slot → Int) : Defined [] (initial ρ) := by
  intro slot hslot
  exact ⟨ρ slot, if_pos (hslot.resolve_right List.not_mem_nil)⟩

theorem mapM_of_defined {xs : List Variable} (hσ : Defined w σ)
    (hxs : ∀ x ∈ xs, x.slot.isInput ∨ x.slot ∈ w) :
    ∃ args : List Int, args.length = xs.length ∧
      xs.mapM (fun x => σ x.slot) = some (args.map .int) := by
  induction xs with
  | nil => exact ⟨[], rfl, rfl⟩
  | cons x xs ih =>
      rw [List.forall_mem_cons] at hxs
      obtain ⟨n, hn⟩ := hσ x.slot hxs.1
      obtain ⟨args, hlength, hargs⟩ := ih hxs.2
      refine ⟨n :: args, congrArg Nat.succ hlength, ?_⟩
      rw [List.mapM_cons, hn, hargs]
      rfl

/-- Integer code that reads what has been written can be executed. -/
theorem exists_exec {p : Program} {exceptionBase : Option TypeRef} {lookup : SentenceLookup}
    {m : MethodRef} (hl : p.Encodes exceptionBase lookup) (hread : ReadsWritten w code)
    (hcode : Lowers ⟨m, lookup⟩ code)
    (hσ : Defined w σ) : ∃ τ, exec σ code = some τ ∧ Defined (written w code) τ := by
  induction code generalizing σ w with
  | nil => exact ⟨σ, rfl, hσ⟩
  | cons i code ih =>
      obtain ⟨hops, hread⟩ := hread
      obtain ⟨⟨hi, l, hlower⟩, hcode⟩ := List.forall_mem_cons.1 hcode
      obtain ⟨args, hlength, hargs⟩ := mapM_of_defined hσ hops
      obtain ⟨x, n, hx, hn⟩ := exists_compute hl hi hlower hlength
      have hstep := (step_eq_some_iff hx).2 ⟨_, _, hargs, hn, rfl⟩
      rw [exec, if_neg (ne_ret_of_isArithmetic hi), hstep, written, hx]
      rw [hx] at hread
      refine ih hread hcode fun slot hslot => ?_
      by_cases heq : slot = x.slot
      · exact ⟨n, if_pos heq⟩
      · obtain ⟨k, hk⟩ := hσ slot (by simpa [heq] using hslot)
        exact ⟨k, (if_neg heq).trans hk⟩

/-- Slots with the same constant are the same, static fields apart. -/
theorem eq_or_staticField_of_slotSymbol_eq {m : MethodRef} {a b : Slot}
    (h : m.slotSymbol a = m.slotSymbol b) :
    a = b ∨ ∃ f f', a = .staticField f ∧ b = .staticField f' := by
  have hlocal : a.isLocal ↔ b.isLocal := by
    rw [← m.mark_mem_slotSymbol_iff, ← m.mark_mem_slotSymbol_iff, h]
  by_cases ha : a.isLocal
  · exact Or.inl (MethodRef.slotSymbol_inj ha (hlocal.1 ha) (congrArg (· ++ "!" ++ "") h)).2
  · have hb := mt hlocal.2 ha
    cases a <;> cases b <;> simp [Slot.isLocal] at ha hb ⊢

/-- The values of a store can be given to the constants of its slots, if no two static fields have
one constant. -/
theorem exists_integers {m : MethodRef} {slots : List Slot}
    (hfields : ∀ f f', .staticField f ∈ slots → .staticField f' ∈ slots →
      Text.symbol f.text = Text.symbol f'.text → f = f')
    (hτ : ∀ slot ∈ slots, ∃ n, τ slot = some (.int n)) :
    ∃ v : String → Int, ∀ slot ∈ slots, τ slot = some (.int (v (m.slotSymbol slot))) := by
  have hvalue : ∀ symbol, ∃ n, ∀ slot ∈ slots, m.slotSymbol slot = symbol →
      τ slot = some (.int n) := by
    intro symbol
    by_cases hsymbol : ∃ slot ∈ slots, m.slotSymbol slot = symbol
    · obtain ⟨slot, hslot, rfl⟩ := hsymbol
      obtain ⟨n, hn⟩ := hτ slot hslot
      refine ⟨n, fun slot' hslot' heq => ?_⟩
      obtain rfl | ⟨f, f', rfl, rfl⟩ := eq_or_staticField_of_slotSymbol_eq heq
      · exact hn
      · rw [hfields f f' hslot' hslot heq, hn]
    · exact ⟨0, fun slot hslot heq => absurd ⟨slot, hslot, heq⟩ hsymbol⟩
  choose v hv using hvalue
  exact ⟨v, fun slot hslot => hv _ slot hslot rfl⟩

/-- Every slot that is accessed is an input or gets written. -/
theorem mem_written_of_accessed (harithmetic : ∀ i ∈ code, i.IsArithmetic)
    (hread : ReadsWritten w code) :
    ∀ slot ∈ MethodGraph.accessed code, slot.isInput ∨ slot ∈ written w code := by
  induction code generalizing w with
  | nil => simp [MethodGraph.accessed]
  | cons i code ih =>
      rw [List.forall_mem_cons] at harithmetic
      obtain ⟨hops, hread⟩ := hread
      have hlater : ∀ slot ∈ (i.result?.map (·.slot)).toList ++ w,
          slot ∈ written w (i :: code) := fun slot hslot => subset_written _ code hslot
      rw [MethodGraph.accessed, List.flatMap_cons, List.forall_mem_append, List.forall_mem_map]
      refine ⟨fun x hx => ?_, ih harithmetic.2 hread⟩
      obtain hx | hx := List.mem_append.1 hx
      · exact (hops x hx).imp_right fun hw => hlater _ (List.mem_append_right _ hw)
      · rw [← result?_of_isArithmetic harithmetic.1, Option.mem_toList] at hx
        exact Or.inr (hlater _ (List.mem_append_left _ (by simp [Option.mem_def.1 hx])))

end Executions

/-! ## forms -/

section Forms

variable {p : Program} {exceptionBase : Option TypeRef} {lookup : SentenceLookup}
  {g : MethodGraph} {f : Form} {code : List Instruction}

/-- The path through a form of one block. -/
def through : Skeleton := ⟨[⟨.entry, 0⟩, ⟨.node 0, 0⟩], .returned⟩

theorem Lowers.translated (hl : p.Encodes exceptionBase lookup) {m : MethodRef}
    (h : Lowers ⟨m, lookup⟩ code) (v : String → Int) :
    AllTranslated ⟨m, lookup⟩ (integers v) code := by
  intro i hi
  obtain ⟨harithmetic, l, hlower⟩ := h i hi
  exact ⟨l, hlower, translated_of_isArithmetic hl harithmetic hlower v⟩

theorem plainTerms_ret {c : Lowering} {i : Instruction} (hop : i.opcode = .ret) :
    plainTerms c i = [] := by
  unfold plainTerms
  split
  · next statements hlower =>
      obtain ⟨value, heq, -⟩ := Lowering.lower_ret hop hlower
      obtain rfl := Lowered.plain.inj heq
      simp [Statement.terms, Statement.withEffect, Statement.assertion]
  · rfl

/-- The block of the graph is one segment, which leads out of the method. -/
theorem segment_of_straightLine (hl : p.Encodes exceptionBase lookup)
    (hf : Form.ofGraph lookup g = .ok f) (hg : g.StraightLine code) {b : Block}
    (hb : f.block? (.node 0) = some b) :
    Lowers ⟨g.method, lookup⟩ code ∧ b.successors = [⟨.always, .regularExit⟩] ∧
      b.assertions.flatMap (·.statement.terms) = code.flatMap (plainTerms ⟨g.method, lookup⟩) := by
  obtain ⟨source', last, hblocks, hinstructions, hlast⟩ := hg.block
  obtain ⟨hmem, hid⟩ := Form.of_block?_eq_some hb
  obtain ⟨-, source, visible, segments, bare, preds, hsource, -, hsegments, hbare, rfl⟩ :=
    Form.segment_of_ofGraph hf hmem (n := 0) (by rw [hid]; rfl)
  obtain rfl : source' = source := by simpa [hblocks] using hsource
  obtain ⟨s, edges, hs, -, -⟩ := Lowering.lowerBlock_eq_ok hsegments
  have hlower := exists_lower_of_lowerAll hs
  rw [hinstructions] at hlower
  have hlowers : Lowers ⟨g.method, lookup⟩ code := fun i hi =>
    ⟨hg.arithmetic i hi, hlower i (List.mem_append_left _ hi)⟩
  have hall : AllTranslated ⟨g.method, lookup⟩ (integers fun _ => 0) source'.instructions := by
    rw [hinstructions, AllTranslated, List.forall_mem_append, List.forall_mem_singleton]
    refine ⟨hlowers.translated hl _, ?_⟩
    obtain ⟨l, hl'⟩ := hlower last (by simp)
    obtain ⟨value, rfl, -⟩ := Lowering.lower_ret hlast hl'
    exact ⟨_, hl', .leaves (Or.inr hlast) (by simp [Statement.terms, Statement.withEffect,
      Statement.assertion])⟩
  obtain ⟨b, rfl, -, hexits, hterms, -⟩ := lowerBlock_translated hsegments hall
  obtain rfl := List.mem_singleton.1 hbare
  refine ⟨hlowers, ?_, ?_⟩
  · have hterminator : source'.terminator?.map Instruction.opcode = some .ret := by
      simp [MethodGraph.Block.terminator?, hinstructions, hlast]
    rw [Lowering.exits, hterminator] at hexits
    exact (Except.ok.inj hexits).symm
  · change bare.assertions.flatMap (·.statement.terms) = _
    rw [hterms, hinstructions, List.flatMap_append]
    simp [plainTerms_ret hlast]

/-- The entry of a form leads to the first block. -/
theorem exists_entry (hf : Form.ofGraph lookup g = .ok f) :
    ∃ b, f.block? .entry = some b ∧ b.successors = [⟨.always, .node 0⟩] ∧ b.assertions = [] := by
  obtain ⟨b, hb⟩ := Form.exists_block? (Form.walkable_of_ofGraph hf).entry
  obtain ⟨hmem, hid⟩ := Form.of_block?_eq_some hb
  obtain ⟨bare, preds, hbare, rfl⟩ := Form.entry_of_ofGraph hf hmem (by rw [hid]; rfl)
  obtain ⟨declared, rfl, -, -⟩ := Lowering.lowerEntry_eq_ok hbare
  exact ⟨_, hb, rfl, rfl⟩

/-- **One path**: straight-line code is passed through once, and what holds on the way is what its
instructions assert. -/
theorem paths_straightLine (hl : p.Encodes exceptionBase lookup)
    (hf : Form.ofGraph lookup g = .ok f) (hg : g.StraightLine code) :
    Lowers ⟨g.method, lookup⟩ code ∧ (∀ limit, 0 < limit → f.paths limit = .ok [through]) ∧
      f.termsAlong through.steps = code.flatMap (plainTerms ⟨g.method, lookup⟩) := by
  have hwalkable := Form.walkable_of_ofGraph hf
  obtain ⟨entry, hentry, hlead, hnone⟩ := exists_entry hf
  have hmem := (Form.of_block?_eq_some hentry).1
  have hedge : ⟨.always, .node 0⟩ ∈ entry.successors := hlead ▸ List.mem_singleton_self _
  obtain ⟨b, hb⟩ := Form.exists_block? (hwalkable.edges entry hmem _ hedge)
  obtain ⟨hlowers, hleave, hterms⟩ := segment_of_straightLine hl hf hg hb
  refine ⟨hlowers, fun limit hlimit => ?_, ?_⟩
  · have hexplore : f.explore (f.blocks.length + 1) .entry [] = [through] := by
      obtain ⟨n, hn⟩ := Nat.exists_eq_succ_of_ne_zero (List.length_pos_of_mem hmem).ne'
      have hstart : Form.turn [] ⟨.always, .node 0⟩ = .go [.node 0] := rfl
      have hstop : Form.turn [.node 0] ⟨.always, .regularExit⟩ = .leave .returned := rfl
      simp [hn, Form.explore, hentry, hlead, hb, hleave, hstart, hstop, Skeleton.after, through]
    rw [Form.paths_eq_walk, Form.toList_walk_entry hwalkable, hexplore]
    exact if_pos hlimit
  · have hguards : ∀ b : Block, b.guardTerms .always = [] := fun _ => rfl
    rw [Form.termsAlong, through, List.flatMap_cons, List.flatMap_singleton,
      Form.termsAt_eq hentry (e := ⟨.always, .node 0⟩) (by rw [hlead]; rfl),
      Form.termsAt_eq hb (e := ⟨.always, .regularExit⟩) (by rw [hleave]; rfl), hterms, hnone]
    simp [hguards]

/-- **Straight-line code is described if no static field changes.** There is one path. Integers make
its terms true exactly if the execution of the code, from the inputs they give, agrees with them at
every point; a static field must then have one value throughout. Where no static field is written
behind another access to it, and no two of them have one constant, every execution ends, and its
final values make the terms true. -/
theorem straightLine_terms_exact (hl : p.Encodes exceptionBase lookup)
    (hf : Form.ofGraph lookup g = .ok f) (hg : g.StraightLine code) :
    (∀ limit, 0 < limit → f.paths limit = .ok [through]) ∧
    (∀ v : String → Int, (∀ e ∈ f.termsAlong through.steps, Holds (integers v) e.render) ↔
      ∀ front, front <+: code → ∃ σ, exec (inputs g.method (integers v)) front = some σ ∧
        Agrees g.method (integers v) σ) ∧
    (MethodGraph.FieldsFirst [] code →
      (∀ f f', .staticField f ∈ MethodGraph.accessed code →
        .staticField f' ∈ MethodGraph.accessed code → Text.symbol f.text = Text.symbol f'.text →
        f = f') →
      ∀ ρ : Slot → Int, ∃ τ, ∃ v : String → Int, exec (initial ρ) code = some τ ∧
        (∀ slot ∈ MethodGraph.accessed code,
          τ slot = some (.int (v (g.method.slotSymbol slot)))) ∧
        ∀ e ∈ f.termsAlong through.steps, Holds (integers v) e.render) := by
  obtain ⟨hlowers, hpaths, hterms⟩ := paths_straightLine hl hf hg
  have hret : ∀ i ∈ code, i.opcode ≠ .ret := fun i hi => ne_ret_of_isArithmetic (hg.arithmetic i hi)
  have hread := readsWritten_of_keepsContract hg.contract
  rw [hterms]
  refine ⟨hpaths, fun v => holds_iff_agrees hret hread (hlowers.translated hl v),
    fun hfirst hfields ρ => ?_⟩
  obtain ⟨τ, hexec, hdefined⟩ := exists_exec hl hread hlowers (defined_initial ρ)
  have hτ : ∀ slot ∈ MethodGraph.accessed code, ∃ n, τ slot = some (.int n) := fun slot hslot =>
    hdefined slot (mem_written_of_accessed hg.arithmetic hread slot hslot)
  obtain ⟨v, hv⟩ := exists_integers hfields hτ
  have hagrees : ∀ slot ∈ MethodGraph.accessed code, ∀ a, τ slot = some a →
      integers v (g.method.slotSymbol slot) = a := fun slot hslot a ha =>
    Option.some.inj ((hv slot hslot).symm.trans ha)
  exact ⟨τ, v, hexec, hv,
    holds_of_final hret hg.contract hfirst (hlowers.translated hl v) hexec hagrees⟩

end Forms

namespace Sample.Counter

/-- A method without branches. -/
def method : MethodRef := .static (.named "Sample" "Counters" []) "Raise" [.int32] .void

/-- Its parameter. -/
def given : Slot := .parameter 0
/-- A static field. -/
def total : Slot := .staticField ⟨.named "Sample" "Counters" [], "total"⟩

def one : Variable := ⟨.stack 0, .int32⟩
def next : Variable := ⟨.stack 1, .int32⟩

/-- Sets the total to the successor of a slot. -/
def code (slot : Slot) : List Instruction :=
  [⟨0, .constant (.int 1), some one, []⟩, ⟨1, .binary .add, some next, [⟨slot, .int32⟩, one]⟩,
    ⟨2, .assign, some ⟨total, .int32⟩, [next]⟩]

/-- Add to a slot, then return. -/
def graph (slot : Slot) : MethodGraph :=
  { method
    blocks := [
      { index := 0, instructions := code slot ++ [⟨3, .ret, none, []⟩], successors := [] } ] }

/-- The form of the graph. -/
def form (slot : Slot) : Form :=
  (Form.ofGraph (Program.empty.lookup none) (graph slot)).toOption.getD default

theorem straightLine {slot : Slot} (hslot : slot.isInput) :
    (graph slot).StraightLine (code slot) where
  block := ⟨_, _, rfl, rfl, rfl⟩
  arithmetic := by
    simp [code, Instruction.IsArithmetic, Instruction.variables, one, next, or_imp, forall_and]
  contract := by
    have hinput : ∀ n, Slot.isInput (.stack n) = false := fun _ => rfl
    have hlocal : total.isLocal = false := rfl
    simp [code, MethodGraph.KeepsContract, Instruction.result?, one, next, hslot, hinput, hlocal]

theorem form_total : Form.ofGraph (Program.empty.lookup none) (graph total) = .ok (form total) := by
  decide

theorem form_given : Form.ofGraph (Program.empty.lookup none) (graph given) = .ok (form given) := by
  decide

/-- Where the total itself is raised, it must be its own successor. -/
theorem contradictory : (graph total).StraightLine (code total) ∧
    Form.ofGraph (Program.empty.lookup none) (graph total) = .ok (form total) ∧
    (form total).paths 1 = .ok [through] ∧
    ∀ v : String → Int,
      ¬∀ e ∈ (form total).termsAlong through.steps, Holds (integers v) e.render := by
  have hg : (graph total).StraightLine (code total) := straightLine rfl
  have hl := Program.encodes_lookup .empty none
  obtain ⟨hlowers, hpaths, hterms⟩ := paths_straightLine hl form_total hg
  refine ⟨hg, form_total, hpaths 1 Nat.one_pos, fun v h => ?_⟩
  rw [hterms, holds_iff_agrees (fun i hi => ne_ret_of_isArithmetic (hg.arithmetic i hi))
    (readsWritten_of_keepsContract hg.contract) (hlowers.translated hl v)] at h
  obtain ⟨σ, hσ, hagrees⟩ := h (code total) (List.prefix_refl _)
  obtain rfl := Option.some.inj hσ
  have hraised := hagrees total (.int (v (method.slotSymbol total) + 1)) rfl
  have hsame : v (method.slotSymbol total) = v (method.slotSymbol total) + 1 :=
    Scalar.int.inj hraised
  omega

/-- Where the total is only set, every execution describes the path. -/
theorem given_terms_exact : (graph given).StraightLine (code given) ∧
    Form.ofGraph (Program.empty.lookup none) (graph given) = .ok (form given) ∧
    MethodGraph.FieldsFirst [] (code given) ∧ (form given).paths 1 = .ok [through] ∧
    ∀ ρ : Slot → Int, ∃ τ, ∃ v : String → Int, exec (initial ρ) (code given) = some τ ∧
      (∀ slot ∈ MethodGraph.accessed (code given),
        τ slot = some (.int (v (method.slotSymbol slot)))) ∧
      ∀ e ∈ (form given).termsAlong through.steps, Holds (integers v) e.render := by
  have hg : (graph given).StraightLine (code given) := straightLine rfl
  have hfirst : MethodGraph.FieldsFirst [] (code given) := by
    simp [code, MethodGraph.FieldsFirst, Instruction.result?, Instruction.variables, one, next,
      total, given, Slot.isLocal]
  obtain ⟨hpaths, -, hdescribes⟩ :=
    straightLine_terms_exact (Program.encodes_lookup .empty none) form_given hg
  refine ⟨hg, form_given, hfirst, hpaths 1 Nat.one_pos, hdescribes hfirst ?_⟩
  simp [code, MethodGraph.accessed, Instruction.variables, one, next, total, given]

end Sample.Counter

end Scalar

end Pathwise
