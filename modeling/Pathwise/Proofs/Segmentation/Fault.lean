import Pathwise.Proofs.Layout

/-!
# Pathwise.Proofs.Segmentation.Fault

Which faults an instruction checks for, read off its opcode (`Lowering.checked`),
and the outcomes it has then: none of the faults, and each of them
(`FaultGroup.outcomes`). An instruction that checks for something ends its segment
with one group for each outcome, in order; any other one does not end its segment
(`Lowering.checks_lower`).
-/

namespace Pathwise

/-- The outcomes of an instruction that checks for some faults, numbered in order. -/
def FaultGroup.outcomes (offset : Nat) (kinds : List FaultKind) : List FaultGroup :=
  { ordinal := 0, fault := none, offset } ::
    (kinds.zipIdx 1).map fun q => { ordinal := q.2, fault := some q.1, offset }

/-- Outcomes are numbered from zero. -/
theorem FaultGroup.ordinals_outcomes (offset : Nat) (kinds : List FaultKind) :
    (outcomes offset kinds).map (·.ordinal) = List.range (kinds.length + 1) := by
  simp [outcomes, Function.comp_def, List.zipIdx_map_snd, List.range_eq_range', List.range'_succ]

/-- What an instruction becomes if it checks for some faults: groups if there are any. -/
def Lowered.Checks (offset : Nat) (kinds : List FaultKind) : Lowered → Prop
  | .faulting groups _ => kinds ≠ [] ∧ groups.map (·.1) = FaultGroup.outcomes offset kinds
  | _ => kinds = []

namespace Lowering

open MethodGraph (Instruction)

variable {l : Lowered}

/-- The receiver of a call can be null. -/
def receiverNullable (c : Lowering) (i : Instruction) : Bool :=
  (do c.lookup (← c.operand i 0).type).toOption.any nullable

/-- The faults that an instruction checks for. -/
def checked (c : Lowering) (i : Instruction) : List FaultKind :=
  match i.opcode with
  | .arrayLength => [.nullReference]
  | .loadElement | .storeElement => [.nullReference, .indexBelowRange, .indexAboveRange]
  | .call callee true =>
    if callee.isStatic then []
    else
      (if c.receiverNullable i then [.nullReference] else []) ++
        if callee.isAbstract then [.missingOverride] else []
  | _ => []

/-- An instruction that becomes fault groups. -/
def faults (c : Lowering) (i : Instruction) : Bool :=
  match c.lower i with
  | .ok (.faulting ..) => true
  | _ => false

/-- The number of instructions of a block that become fault groups. -/
def faultCount (c : Lowering) (source : MethodGraph.Block) : Nat :=
  source.instructions.countP c.faults

/-- No block of a graph has more segments than there are numbers for them. -/
def FewFaults (c : Lowering) (g : MethodGraph) : Prop :=
  ∀ source ∈ g.blocks, c.faultCount source < 65536

/-- The segment in which the encoding of an instruction starts, given its position: every
instruction before it that becomes fault groups has ended a segment. -/
def segmentOf (c : Lowering) (instructions : List Instruction) (position : Nat) : Nat :=
  (instructions.take position).countP c.faults

variable {c : Lowering} {i : Instruction}

/-! ## groups -/

/-- Checks become groups in order. -/
theorem groups_faultGroups (offset : Nat) (absent : List Sexp) (ordinal : Nat)
    (checks : List FaultCheck) :
    (faultGroups offset absent ordinal checks).map (·.1) =
      ((checks.map (·.kind)).zipIdx ordinal).map fun q =>
        { ordinal := q.2, fault := some q.1, offset } := by
  induction checks generalizing absent ordinal with
  | nil => rfl
  | cons check checks ih => rw [faultGroups, List.map_cons, ih]; rfl

/-- One group for each check. -/
theorem checks_faulting {offset : Nat} {normal : List Sexp} {checks : List FaultCheck}
    {semantics : List Statement} {kinds : List FaultKind} (h : checks.map (·.kind) = kinds) :
    (faulting offset normal checks semantics).Checks offset kinds := by
  subst h
  unfold faulting
  split
  · next hempty => simpa [Lowered.Checks] using hempty
  · next hempty =>
      refine ⟨by simpa using hempty, ?_⟩
      rw [List.map_cons, groups_faultGroups, FaultGroup.outcomes]

/-- What a null check checks. -/
theorem kind_nullCheck {s : Sentence} {a : Sexp} {check : FaultCheck}
    (h : nullCheck s a = .ok check) : check.kind = .nullReference := by
  simp only [nullCheck, bind_eq_ok, pure_eq_ok] at h
  obtain ⟨_, -, _, -, rfl⟩ := h
  rfl

/-- What an element access checks. -/
theorem kinds_elementGuards {s : Sentence} {array index : Sexp} {normal : List Sexp}
    {checks : List FaultCheck} (h : elementGuards s array index = .ok (normal, checks)) :
    checks.map (·.kind) = [.nullReference, .indexBelowRange, .indexAboveRange] := by
  simp only [elementGuards, bind_eq_ok, pure_eq_ok] at h
  obtain ⟨_, -, _, -, _, -, _, -, check, hcheck, heq⟩ := h
  obtain ⟨-, rfl⟩ := Prod.mk.inj heq
  simp [kind_nullCheck hcheck]

/-! ## instructions -/

/-- A call with virtual dispatch checks its receiver if that can be null, and an abstract callee. -/
theorem checks_lowerCall {callee : MethodRef} {virtualDispatch : Bool}
    (hop : i.opcode = .call callee virtualDispatch)
    (h : c.lowerCall i callee virtualDispatch = .ok l) : l.Checks i.offset (c.checked i) := by
  unfold lowerCall at h
  simp only [pure_bind] at h
  split at h
  · simp at h
  · obtain ⟨arguments, -, h⟩ := bind_eq_ok.1 h
    split at h
    · next hplain =>
        obtain rfl := pure_eq_ok.1 h
        cases virtualDispatch with
        | false => simp [Lowered.Checks, checked, hop]
        | true => simp_all [Lowered.Checks, checked]
    · next hvirtual =>
        obtain ⟨receiver, hr, h⟩ := bind_eq_ok.1 h
        obtain ⟨s, hs, h⟩ := bind_eq_ok.1 h
        obtain ⟨hdispatch, hstatic⟩ : virtualDispatch = true ∧ callee.isStatic = false := by
          simpa using hvirtual
        have hnullable : c.receiverNullable i = nullable s := by
          simp [receiverNullable, hr, hs, bind, Except.bind, Except.toOption]
        have hchecked : c.checked i = (if nullable s then [.nullReference] else []) ++
            if callee.isAbstract then [.missingOverride] else [] := by
          simp [checked, hop, hdispatch, hstatic, hnullable]
        rw [hchecked]
        split at h
        · next hnull =>
            obtain ⟨check, hcheck, h⟩ := bind_eq_ok.1 h
            obtain ⟨notNull, -, h⟩ := bind_eq_ok.1 h
            split at h
            · next habstract =>
                obtain ⟨exact, -, h⟩ := bind_eq_ok.1 h
                rw [← pure_eq_ok.1 h]
                exact checks_faulting (by simp [hnull, habstract, kind_nullCheck hcheck])
            · next habstract =>
                rw [← pure_eq_ok.1 h]
                exact checks_faulting (by simp [hnull, habstract, kind_nullCheck hcheck])
        · next hnull =>
            split at h
            · next habstract =>
                obtain ⟨exact, -, h⟩ := bind_eq_ok.1 h
                rw [← pure_eq_ok.1 h]
                exact checks_faulting (by simp [hnull, habstract])
            · next habstract =>
                rw [← pure_eq_ok.1 h]
                exact checks_faulting (by simp [hnull, habstract])

/-- **Instructions end segments where they check for faults**, with one group for each outcome. -/
theorem checks_lower (h : c.lower i = .ok l) :
    l.Checks i.offset (c.checked i) := by
  cases hop : i.opcode with
  | call callee virtualDispatch =>
      rw [lower, hop] at h
      exact checks_lowerCall hop h
  | arrayLength =>
      simp only [lower, hop, bind_eq_ok, pure_eq_ok] at h
      obtain ⟨_, -, s, -, _, -, semantics, -, check, hcheck, notNull, -, rfl⟩ := h
      simp only [checked, hop]
      exact checks_faulting (by simp [kind_nullCheck hcheck])
  | loadElement =>
      simp only [lower, hop, bind_eq_ok, pure_eq_ok] at h
      obtain ⟨_, -, _, -, s, -, _, -, _, -, semantics, -, ⟨normal, checks⟩, hguards, rfl⟩ := h
      simp only [checked, hop]
      exact checks_faulting (kinds_elementGuards hguards)
  | storeElement =>
      simp only [lower, hop, bind_eq_ok, pure_eq_ok] at h
      obtain ⟨_, -, _, -, _, -, s, -, _, -, _, -, _, -, semantics, -, ⟨normal, checks⟩, hguards,
        rfl⟩ := h
      simp only [checked, hop]
      exact checks_faulting (kinds_elementGuards hguards)
  | branch test =>
      obtain ⟨_, _, _, _, -, -, -, -, rfl⟩ := lower_branch hop h
      simp [Lowered.Checks, checked, hop]
  | newObject constructor =>
      obtain ⟨_, _, _, _, -, -, -, -, rfl⟩ := lower_newObject hop h
      simp [Lowered.Checks, checked, hop]
  | storeField field =>
      obtain ⟨_, _, _, _, _, _, _, -, -, -, -, -, -, rfl⟩ := lower_storeField hop h
      simp [Lowered.Checks, checked, hop]
  | ret =>
      obtain ⟨_, rfl, -⟩ := lower_ret hop h
      simp [Lowered.Checks, checked, hop]
  | jump =>
      rw [lower, hop] at h
      obtain rfl := Except.ok.inj h
      simp [Lowered.Checks, checked, hop]
  | unsupported name =>
      rw [lower, hop] at h
      contradiction
  | _ =>
      simp only [lower, hop, bind_eq_ok, pure_eq_ok] at h
      grind [Lowered.Checks, checked]

theorem faults_of_plain {statements : List Statement} (h : c.lower i = .ok (.plain statements)) :
    c.faults i = false := by
  simp [faults, h]

theorem faults_of_branch {taken notTaken : Statement}
    (h : c.lower i = .ok (.branch taken notTaken)) : c.faults i = false := by
  simp [faults, h]

theorem faults_of_faulting {groups : List (FaultGroup × Statement)} {semantics : List Statement}
    (h : c.lower i = .ok (.faulting groups semantics)) : c.faults i = true := by
  simp [faults, h]

/-- Whether an instruction becomes fault groups can be read off its opcode. -/
theorem faults_iff (h : c.lower i = .ok l) :
    c.faults i = true ↔ c.checked i ≠ [] := by
  have hchecks := checks_lower h
  cases l with
  | plain statements => simp_all [faults, Lowered.Checks]
  | faulting groups semantics => simp_all [faults, Lowered.Checks]
  | branch taken notTaken => simp_all [faults, Lowered.Checks]

end Lowering

end Pathwise
