import Pathwise.Proofs.Edges
import Pathwise.Proofs.Success

/-!
# Pathwise.Proofs.Layout

How the form of a graph is laid out, read off an encoding that succeeded. One
lemma for each function of the encoder says what its success means; everything
about forms is shown from these and never by unfolding the encoder again.

`Form.mem_blocks_of_ofGraph` sums up: a block of a form is its entry, one of the
two exits, or a segment of a block of the graph.
-/

namespace Pathwise

/-- All statements that an instruction becomes. -/
def Lowered.statements : Lowered → List Statement
  | .plain statements => statements
  | .faulting groups semantics => groups.map (·.2) ++ semantics
  | .branch taken notTaken => [taken, notTaken]

namespace Lowering

open MethodGraph (Instruction)

variable {c : Lowering} {segments : List Block} {source : MethodGraph.Block} {visible : List Slot}
  {i : Instruction} {index : BlockIndex} {s out : Segments} {b : Block} {l : Lowered} {k : Nat}
  {vs : List Variable} {offset : Nat} {p : Placed}

/-! ## instructions -/

/-- The operand is there. -/
theorem operand_eq_ok {x : Variable} (h : c.operand i k = .ok x) :
    i.operands[k]? = some x := by
  unfold operand at h
  cases hx : i.operands[k]? with
  | none => simp [hx] at h
  | some y =>
      simp only [hx] at h
      rw [Except.ok.inj h]

/-- The target is there. -/
theorem target_eq_ok {x : Variable} (h : c.target i = .ok x) :
    i.target = some x := by
  unfold target at h
  cases hx : i.target with
  | none => simp [hx] at h
  | some y =>
      simp only [hx] at h
      rw [Except.ok.inj h]

/-- The statement that a call runs its callee. -/
def callStatement (c : Lowering) (i : Instruction) (callee : MethodRef) (arguments : List Sexp) :
    Statement :=
  (Statement.assertion i.offset []).withEffect
    (.call callee arguments (if callee.returnsValue then i.target.map c.symbol else none))

/-- A check that a call with virtual dispatch makes of its receiver. -/
inductive ReceiverCheck (s : Sentence) (receiver : Sexp) (callee : MethodRef) :
    FaultCheck → Prop where
  | null {check : FaultCheck} (h : nullCheck s receiver = .ok check) :
      ReceiverCheck s receiver callee check
  | missing {exact : Sexp} (ha : callee.isAbstract = true)
      (h : apply s (.hasExactType receiver (.atom callee.declaring.tag)) = .ok exact) :
      ReceiverCheck s receiver callee
        { kind := .missingOverride, occurs := exact, absent := exact.not }

/-- The check is absent if not null. -/
theorem nullCheck_absent {s : Sentence} {a notNull : Sexp} {check : FaultCheck}
    (h : nullCheck s a = .ok check) (h' : apply s (.isNotNull a) = .ok notNull) :
    check.absent = notNull := by
  simp only [nullCheck, bind_eq_ok, pure_eq_ok] at h
  obtain ⟨isNull, -, absent, habsent, rfl⟩ := h
  exact Except.ok.inj (habsent.symm.trans h')

/-- A call is made at once, or after some checks of its receiver. -/
theorem lowerCall_cases {callee : MethodRef} {virtualDispatch : Bool}
    (h : c.lowerCall i callee virtualDispatch = .ok l) :
    ∃ arguments, c.arguments (i.operands.zip callee.parameterSlots) = .ok arguments ∧
      (l = .plain [c.callStatement i callee arguments] ∨
        virtualDispatch = true ∧ ∃ receiver s checks statement, c.operand i 0 = .ok receiver ∧
          c.lookup receiver.type = .ok s ∧
          (∀ check ∈ checks, ReceiverCheck s (c.term receiver) callee check) ∧
          (statement = c.callStatement i callee arguments ∨
            callee.isAbstract = true ∧
              statement = (c.callStatement i callee arguments).mentioning callee.declaring) ∧
          l = faulting i.offset (checks.map (·.absent)) checks [statement]) := by
  unfold lowerCall at h
  simp only [pure_bind] at h
  split at h
  · simp at h
  · obtain ⟨arguments, hargs, h⟩ := bind_eq_ok.1 h
    refine ⟨arguments, hargs, ?_⟩
    split at h
    · exact Or.inl (pure_eq_ok.1 h).symm
    · next hvirtual =>
        obtain ⟨receiver, hr, h⟩ := bind_eq_ok.1 h
        obtain ⟨s, hs, h⟩ := bind_eq_ok.1 h
        refine Or.inr ⟨by simp_all, receiver, s, ?_⟩
        split at h
        · obtain ⟨check, hcheck, h⟩ := bind_eq_ok.1 h
          obtain ⟨notNull, hnot, h⟩ := bind_eq_ok.1 h
          obtain rfl := nullCheck_absent hcheck hnot
          split at h
          · next habstract =>
              obtain ⟨exact, hexact, h⟩ := bind_eq_ok.1 h
              refine ⟨[check, ⟨.missingOverride, exact, exact.not⟩], _, hr, hs, ?_,
                Or.inr ⟨habstract, rfl⟩,
                (pure_eq_ok.1 h).symm⟩
              simpa using And.intro (.null hcheck) (.missing habstract hexact)
          · exact ⟨[check], _, hr, hs, by simpa using .null hcheck, Or.inl rfl,
              (pure_eq_ok.1 h).symm⟩
        · split at h
          · next habstract =>
              obtain ⟨exact, hexact, h⟩ := bind_eq_ok.1 h
              refine ⟨[⟨.missingOverride, exact, exact.not⟩], _, hr, hs, ?_,
                Or.inr ⟨habstract, rfl⟩,
                (pure_eq_ok.1 h).symm⟩
              simpa using .missing habstract hexact
          · exact ⟨[], _, hr, hs, by simp, Or.inl rfl, (pure_eq_ok.1 h).symm⟩

/-- What an allocation becomes. -/
theorem lower_newObject {constructor : MethodRef} (hop : i.opcode = .newObject constructor)
    (h : c.lower i = .ok l) :
    ∃ target s allocated arguments, c.target i = .ok target ∧ c.lookup target.type = .ok s ∧
      apply s (.allocated (c.term target)) = .ok allocated ∧
      c.arguments (i.operands.zip constructor.parameters) = .ok arguments ∧
      l = .plain [((Statement.assertion i.offset [allocated]).withEffect
        (.construct target.type (c.symbol target) constructor
          (c.term target :: arguments))).mentioning constructor.declaring] := by
  simp only [lower, hop, bind_eq_ok] at h
  obtain ⟨target, ht, s, hs, allocated, ha, h⟩ := h
  split at h
  · simp at h
  · simp only [bind_eq_ok, pure_eq_ok] at h
    obtain ⟨arguments, hargs, rfl⟩ := h
    exact ⟨target, s, allocated, arguments, ht, hs, ha, hargs, rfl⟩

/-- What a return becomes. -/
theorem lower_ret (hop : i.opcode = .ret) (h : c.lower i = .ok l) :
    ∃ value, l = .plain [(Statement.assertion i.offset []).withEffect (.ret value)] ∧
      (value = none ∨ ∃ v e, c.operand i 0 = .ok v ∧ c.coerce v c.method.returnType = .ok e ∧
        value = some e) := by
  simp only [lower, hop, pure_bind] at h
  split at h
  · simp only [bind_eq_ok, pure_eq_ok] at h
    obtain ⟨v, hv, e, he, rfl⟩ := h
    exact ⟨some e, rfl, Or.inr ⟨v, e, hv, he, rfl⟩⟩
  · exact ⟨none, (pure_eq_ok.1 h).symm, Or.inl rfl⟩

/-- What a store to a field becomes. -/
theorem lower_storeField {field : FieldRef} (hop : i.opcode = .storeField field)
    (h : c.lower i = .ok l) :
    ∃ object value s f stored e statement, c.operand i 0 = .ok object ∧
      c.operand i 1 = .ok value ∧ c.lookup object.type = .ok s ∧ c.coerce value f = .ok stored ∧
      apply s (.storeField (c.term object) field.name stored) = .ok e ∧
      c.defining i e = .ok statement ∧ l = .plain [statement] := by
  simp only [lower, hop, bind_eq_ok] at h
  obtain ⟨object, ho, value, hv, s, hs, h⟩ := h
  split at h
  · simp at h
  · next f hf =>
      simp only [bind_eq_ok, pure_eq_ok] at h
      obtain ⟨stored, hstored, e, he, statement, hst, rfl⟩ := h
      exact ⟨object, value, s, f.type, stored, e, statement, ho, hv, hs, hstored, he, hst, rfl⟩

/-- A branch becomes the two sides of its test. -/
theorem lower_branch {test : BranchTest} (hop : i.opcode = .branch test) (h : c.lower i = .ok l) :
    ∃ a s taken notTaken, c.operand i 0 = .ok a ∧ c.lookup a.type = .ok s ∧
      apply s (branchTerms (c.term a) test).1 = .ok taken ∧
      apply s (branchTerms (c.term a) test).2 = .ok notTaken ∧
      l = .branch (.branch i.offset taken) (.assertion i.offset [notTaken]) := by
  simp only [lower, hop, bind_eq_ok, pure_eq_ok] at h
  obtain ⟨a, ha, s, hs, taken, ht, notTaken, hn, rfl⟩ := h
  exact ⟨a, s, taken, notTaken, ha, hs, ht, hn, rfl⟩

/-! ## declarations -/

/-- A declaration that the encoder makes for one of some variables. -/
def Declares (c : Lowering) (vs : List Variable) (p : Placed) : Prop :=
  ∃ v ∈ vs, ∃ offset s, c.lookup v.type = .ok s ∧
    p.statement = .declaration offset v.slot v.type (c.symbol v) (.atom s.name)

theorem Declares.mono {vs ws : List Variable} (h : vs ⊆ ws) (hp : c.Declares vs p) :
    c.Declares ws p := by
  obtain ⟨v, hv, hp⟩ := hp
  exact ⟨v, h hv, hp⟩

/-- What declares a variable. -/
theorem declare_eq_ok {v : Variable} {d : Statement} (h : c.declare offset v = .ok d) :
    ∃ s, c.lookup v.type = .ok s ∧
      d = .declaration offset v.slot v.type (c.symbol v) (.atom s.name) := by
  simp only [declare, bind_eq_ok, pure_eq_ok] at h
  obtain ⟨s, hs, rfl⟩ := h
  exact ⟨s, hs, rfl⟩

/-- Declaring variables adds declarations to the current segment and nothing else. All of the
variables are visible then, and no slot becomes visible twice. -/
theorem declareAll_eq_ok (h : c.declareAll offset vs s = .ok out) :
    ∃ declared, out = { s with
        current := { s.current with declarations := s.current.declarations ++ declared }
        visible := s.visible ++ declared.filterMap (·.statement.slot?) } ∧
      (∀ p ∈ declared, c.Declares vs p) ∧ (∀ v ∈ vs, v.slot ∈ out.visible) ∧
      (∀ p ∈ declared, p.block = s.current.id) ∧ (s.visible.Nodup → out.visible.Nodup) := by
  induction vs generalizing s with
  | nil =>
      obtain rfl := Except.ok.inj h
      exact ⟨[], by simp, by simp, by simp, by simp, id⟩
  | cons v vs ih =>
      unfold declareAll at h
      by_cases hv : v.slot ∈ s.visible
      · rw [if_pos hv] at h
        obtain ⟨declared, hout, hdeclared, hvisible, hrest⟩ := ih h
        refine ⟨declared, hout, fun p hp => (hdeclared p hp).mono (List.subset_cons_self v vs), ?_,
          hrest⟩
        rw [List.forall_mem_cons]
        exact ⟨by simp [hout, hv], hvisible⟩
      · rw [if_neg hv] at h
        obtain ⟨d, hd, h⟩ := bind_eq_ok.1 h
        obtain ⟨declared, hout, hdeclared, hvisible, hplaced, hnodup⟩ := ih h
        obtain ⟨sentence, hsentence, hd⟩ := declare_eq_ok hd
        have hslot : d.slot? = some v.slot := by rw [hd]; rfl
        refine ⟨d.link s.current.id :: declared, ?_, ?_, ?_, ?_, ?_⟩
        · rw [hout]
          simp [Statement.link, hslot]
        · rw [List.forall_mem_cons]
          exact ⟨⟨v, List.mem_cons_self, offset, sentence, hsentence, hd⟩,
            fun p hp => (hdeclared p hp).mono (List.subset_cons_self v vs)⟩
        · rw [List.forall_mem_cons]
          exact ⟨by simp [hout], hvisible⟩
        · exact List.forall_mem_cons.2 ⟨rfl, hplaced⟩
        · intro hs
          refine hnodup (List.nodup_append.2 ⟨hs, List.pairwise_singleton _ _, ?_⟩)
          rintro slot hslot _ hmem rfl
          exact hv (List.mem_singleton.1 hmem ▸ hslot)

/-! ## blocks of a graph -/

/-- What the first instruction of a block can do: add statements, end the segment, or end the
block. -/
theorem lowerAll_cons {rest : List Instruction} (h : c.lowerAll (i :: rest) s = .ok out) :
    ∃ d, c.declareAll i.offset i.variables s = .ok d ∧
      ((∃ statements, c.lower i = .ok (.plain statements) ∧
          c.lowerAll rest (d.assert statements) = .ok out) ∨
        (∃ groups semantics, c.lower i = .ok (.faulting groups semantics) ∧
          c.lowerAll rest ((d.split groups).assert semantics) = .ok out) ∨
        ∃ taken notTaken, c.lower i = .ok (.branch taken notTaken) ∧ rest = [] ∧
          out = d.branch taken notTaken) := by
  simp only [lowerAll, bind_eq_ok] at h
  obtain ⟨d, hd, lowered, hl, h⟩ := h
  refine ⟨d, hd, ?_⟩
  cases lowered with
  | plain statements => exact Or.inl ⟨statements, hl, h⟩
  | faulting groups semantics => exact Or.inr (Or.inl ⟨groups, semantics, hl, h⟩)
  | branch taken notTaken =>
      cases rest with
      | nil => exact Or.inr (Or.inr ⟨taken, notTaken, hl, rfl, (Except.ok.inj h).symm⟩)
      | cons j rest => simp at h

/-- What the edges behind a block can be: the two sides of a branch, or one edge that is always
followed. -/
theorem exits_cases {b : MethodGraph.Block} {edges : List Edge} (h : c.exits b = .ok edges) :
    (∃ test taken other, b.terminator?.map Instruction.opcode = some (.branch test) ∧
      b.successors = [taken, other] ∧
      edges = [⟨.taken, .node taken⟩, ⟨.notTaken, .node other⟩]) ∨
    ((∀ test, b.terminator?.map Instruction.opcode ≠ some (.branch test)) ∧
      ∃ target, edges = [⟨.always, target⟩] ∧
        (target = .regularExit ∧
            (b.terminator?.map Instruction.opcode = some .ret ∨ b.successors = []) ∨
          target = .exceptionalExit ∧ b.terminator?.map Instruction.opcode = some .throw ∨
          ∃ next, target = .node next ∧ b.successors = [next] ∧
            b.terminator?.map Instruction.opcode ≠ some .ret)) := by
  unfold exits at h
  split at h
  · next test hterm =>
      split at h
      · next taken other hsucc =>
          exact Or.inl ⟨test, taken, other, hterm, hsucc, (Except.ok.inj h).symm⟩
      · contradiction
  · next hterm =>
      obtain rfl := Except.ok.inj h
      exact Or.inr ⟨by simp [hterm], _, rfl, Or.inl ⟨rfl, Or.inl hterm⟩⟩
  · next hterm =>
      obtain rfl := Except.ok.inj h
      exact Or.inr ⟨by simp [hterm], _, rfl, Or.inr (Or.inl ⟨rfl, hterm⟩)⟩
  · next hbranch hret _ =>
      split at h
      · next hsucc =>
          obtain rfl := Except.ok.inj h
          exact Or.inr ⟨hbranch, _, rfl, Or.inl ⟨rfl, Or.inr hsucc⟩⟩
      · next next hsucc =>
          obtain rfl := Except.ok.inj h
          exact Or.inr ⟨hbranch, _, rfl, Or.inr (Or.inr ⟨next, rfl, hsucc, hret⟩)⟩
      · contradiction

/-- What a block becomes. -/
theorem lowerBlock_eq_ok {b : MethodGraph.Block} (h : c.lowerBlock visible b = .ok segments) :
    ∃ s edges, c.lowerAll b.instructions
        { complete := #[], current := { id := .node b.index }, visible } = .ok s ∧
      c.exits b = .ok edges ∧
      segments = s.complete.toList ++ [{ s.current with
        successors := s.current.successors ++ edges }] := by
  simp only [lowerBlock, bind_eq_ok, pure_eq_ok] at h
  obtain ⟨s, hs, edges, he, rfl⟩ := h
  exact ⟨s, edges, hs, he, rfl⟩

/-- The segments of a block under encoding, the current one last. -/
def Segments.blocks (s : Segments) : List Block := s.complete.toList ++ [s.current]

/-- Encoding instructions declares their variables only. -/
theorem declares_lowerAll {instructions : List Instruction}
    (h : c.lowerAll instructions s = .ok out) (hvs : ∀ i ∈ instructions, i.variables ⊆ vs)
    (hs : ∀ b ∈ s.blocks, ∀ p ∈ b.declarations, c.Declares vs p) :
    ∀ b ∈ out.blocks, ∀ p ∈ b.declarations, c.Declares vs p := by
  induction instructions generalizing s with
  | nil =>
      obtain rfl := Except.ok.inj h
      exact hs
  | cons i rest ih =>
      rw [List.forall_mem_cons] at hvs
      obtain ⟨d, hd, hstep⟩ := lowerAll_cons h
      obtain ⟨declared, rfl, hdeclared, -⟩ := declareAll_eq_ok hd
      simp only [Segments.blocks, List.forall_mem_append, List.forall_mem_singleton] at hs ih ⊢
      have hnew : ∀ p ∈ s.current.declarations ++ declared, c.Declares vs p :=
        List.forall_mem_append.2 ⟨hs.2, fun p hp => (hdeclared p hp).mono hvs.1⟩
      obtain ⟨statements, -, h⟩ | ⟨groups, semantics, -, h⟩ | ⟨taken, notTaken, -, -, rfl⟩ := hstep
      · exact ih h hvs.2 ⟨hs.1, hnew⟩
      · refine ih h hvs.2 ⟨?_, by simp [Segments.split, Segments.assert]⟩
        simp only [Segments.split, Segments.assert, Array.toList_push]
        exact List.forall_mem_append.2 ⟨hs.1, List.forall_mem_singleton.2 hnew⟩
      · exact ⟨hs.1, hnew⟩

theorem declares_lowerBlock (h : c.lowerBlock visible source = .ok segments) (hb : b ∈ segments)
    (hp : p ∈ b.declarations) :
    c.Declares (source.instructions.flatMap Instruction.variables) p := by
  obtain ⟨s, edges, hs, -, rfl⟩ := lowerBlock_eq_ok h
  have hall := declares_lowerAll hs
    (fun i hi v hv => List.mem_flatMap.2 ⟨i, hi, hv⟩) (by simp [Segments.blocks])
  simp only [Segments.blocks, List.forall_mem_append, List.forall_mem_singleton] at hall
  rcases List.mem_append.1 hb with hb | hb
  · exact hall.1 b hb p hp
  · obtain rfl := List.mem_singleton.1 hb
    exact hall.2 p hp

/-- Segments are numbered in order, as far as there are numbers, and then from the start again. -/
structure Segments.Numbered (s : Segments) (index : BlockIndex) : Prop where
  complete : s.complete.toList.map (·.id) =
    (List.range s.complete.size).map fun k => ⟨index, k % 65536⟩
  current : s.current.id = ⟨index, s.complete.size % 65536⟩

theorem Segments.Numbered.split {s : Segments} (hs : s.Numbered index)
    (groups : List (FaultGroup × Statement)) : (s.split groups).Numbered index where
  complete := by
    simp [Segments.split, List.range_succ, hs.complete, hs.current]
  current := by
    simp [Segments.split, BlockId.next, hs.current]

theorem Segments.Numbered.assert {s : Segments} (hs : s.Numbered index)
    (statements : List Statement) : (s.assert statements).Numbered index :=
  ⟨hs.complete, hs.current⟩

theorem Segments.Numbered.declareAll (hs : s.Numbered index)
    (h : c.declareAll offset vs s = .ok out) :
    out.Numbered index := by
  obtain ⟨declared, rfl, -, -⟩ := declareAll_eq_ok h
  exact ⟨hs.complete, hs.current⟩

/-- Instructions keep segments numbered. -/
theorem numbered_lowerAll {instructions : List Instruction}
    (h : c.lowerAll instructions s = .ok out) (hs : s.Numbered index) :
    out.Numbered index := by
  induction instructions generalizing s with
  | nil =>
      obtain rfl := Except.ok.inj h
      exact hs
  | cons i rest ih =>
      obtain ⟨d, hd, hstep⟩ := lowerAll_cons h
      have hd : d.Numbered index := hs.declareAll hd
      obtain ⟨statements, -, h⟩ | ⟨groups, semantics, -, h⟩ | ⟨taken, notTaken, -, -, rfl⟩ := hstep
      · exact ih h (hd.assert statements)
      · exact ih h ((hd.split groups).assert semantics)
      · exact ⟨hd.complete, hd.current⟩

/-- Numbers of segments wrap around. -/
theorem ids_lowerBlock (h : c.lowerBlock visible source = .ok segments) :
    segments.map (·.id) =
      (List.range segments.length).map fun k => ⟨.node source.index, k % 65536⟩ := by
  obtain ⟨s, edges, hs, -, rfl⟩ := lowerBlock_eq_ok h
  have hnumbered := numbered_lowerAll hs ⟨rfl, rfl⟩
  simp [List.range_succ, hnumbered.complete, hnumbered.current]

/-- The number of a segment, by its position. -/
theorem id_of_getElem?_lowerBlock (h : c.lowerBlock visible source = .ok segments)
    (hb : segments[k]? = some b) : b.id = ⟨.node source.index, k % 65536⟩ := by
  obtain ⟨hk, rfl⟩ := List.getElem?_eq_some_iff.1 hb
  have hid := congrArg (·[k]?) (ids_lowerBlock h)
  simpa only [List.getElem?_map, List.getElem?_eq_getElem hk, List.getElem?_range hk,
    Option.map_some, Option.some.injEq] using hid

/-- If there are numbers for all segments, a segment has the number of its position. -/
theorem id_of_length_le (h : c.lowerBlock visible source = .ok segments)
    (hlength : segments.length ≤ 65536) (hb : segments[k]? = some b) :
    b.id = ⟨.node source.index, k⟩ := by
  have hk := (List.getElem?_eq_some_iff.1 hb).1
  rw [id_of_getElem?_lowerBlock h hb, Nat.mod_eq_of_lt (by omega)]

theorem index_of_mem_lowerBlock (h : c.lowerBlock visible source = .ok segments)
    (hb : b ∈ segments) :
    b.id.index = .node source.index := by
  obtain ⟨k, hk⟩ := List.mem_iff_getElem?.1 hb
  rw [id_of_getElem?_lowerBlock h hk]

/-! ## segments that are kept -/

/-- Few segments all stay. -/
theorem latest_of_length_le (h : segments.length ≤ 65536) :
    latest segments = segments := by
  simp [latest, Nat.sub_eq_zero_of_le h]

@[simp]
theorem latest_singleton (b : Block) : latest [b] = [b] := latest_of_length_le (by simp)

/-- The last segments are kept. -/
theorem perm_latest (segments : List Block) :
    (latest segments).Perm (segments.drop (segments.length - 65536)) := by
  unfold latest List.rotateRight
  dsimp only
  split
  · exact .refl _
  · exact List.perm_append_comm.trans (.of_eq (List.take_append_drop _ _))

/-- Only segments that were written stay. -/
theorem latest_subset (segments : List Block) : latest segments ⊆ segments :=
  fun _ hb => List.mem_of_mem_drop ((perm_latest segments).mem_iff.1 hb)

/-- How many segments stay. -/
theorem length_latest (segments : List Block) :
    (latest segments).length = min segments.length 65536 := by
  rw [(perm_latest segments).length_eq, List.length_drop]
  omega

/-- One of the last segments is kept at its number. -/
theorem getElem?_latest (hk : k < segments.length) (hkept : segments.length ≤ k + 65536) :
    (latest segments)[k % 65536]? = segments[k]? := by
  by_cases hlength : segments.length ≤ 65536
  · rw [latest_of_length_le hlength, Nat.mod_eq_of_lt (by omega)]
  · -- the numbers of the last segments start with `turn`
    obtain ⟨replaced, hreplaced⟩ := Nat.exists_eq_add_of_le (Nat.le_of_not_le hlength)
    obtain ⟨j, rfl⟩ := Nat.exists_eq_add_of_le (show replaced ≤ k by omega)
    have hlast : (segments.drop replaced).length = 65536 := by rw [List.length_drop]; omega
    have hturned : latest segments =
        (segments.drop replaced).drop (65536 - replaced % 65536) ++
          (segments.drop replaced).take (65536 - replaced % 65536) := by
      simp only [latest, List.rotateRight]
      rw [show segments.length - 65536 = replaced by omega, hlast, if_neg (by decide)]
    rw [hturned, List.getElem?_append, List.length_drop, hlast, List.getElem?_drop,
      List.getElem?_drop, List.getElem?_take, List.getElem?_drop]
    have hturn := Nat.mod_lt replaced (show 0 < 65536 by decide)
    split
    · exact congrArg (segments[·]?) (by omega)
    · rw [if_pos (by omega)]
      exact congrArg (segments[·]?) (by omega)

/-- Every number that is used is that of one of the last segments. -/
theorem exists_last_position {length k : Nat} (hk : k < min length 65536) :
    ∃ j < length, length ≤ j + 65536 ∧ j % 65536 = k := by
  refine ⟨if length ≤ 65536 then k else
    length - 65536 + (k + 65536 - length % 65536) % 65536, ?_⟩
  split <;> omega

/-- The segments that are kept have different numbers, in order. -/
theorem ids_latest
    (h : segments.map (·.id) = (List.range segments.length).map fun k => ⟨index, k % 65536⟩) :
    (latest segments).map (·.id) =
      (List.range (min segments.length 65536)).map (BlockId.mk index) := by
  refine List.ext_getElem? fun k => ?_
  by_cases hk : k < min segments.length 65536
  · obtain ⟨j, hj, hkept, rfl⟩ := exists_last_position hk
    have hid := congrArg (·[j]?) h
    simp only [List.getElem?_map, List.getElem?_range hj, Option.map_some] at hid
    rw [List.getElem?_map, getElem?_latest hj hkept, hid, List.getElem?_map,
      List.getElem?_range hk, Option.map_some]
  · rw [List.getElem?_eq_none, List.getElem?_eq_none]
    · rw [List.length_map, List.length_range]
      exact Nat.le_of_not_lt hk
    · rw [List.length_map, length_latest]
      exact Nat.le_of_not_lt hk

/-- **Numbers that run out**: one more segment takes the next number or, if all are taken, replaces
the segment with its number. -/
theorem latest_concat (segments : List Block) (b : Block) :
    latest (segments ++ [b]) =
      if segments.length < 65536 then latest segments ++ [b]
      else (latest segments).set (segments.length % 65536) b := by
  have hlength : (segments ++ [b]).length = segments.length + 1 := by simp
  split
  · next h => rw [latest_of_length_le (hlength ▸ h), latest_of_length_le (Nat.le_of_lt h)]
  · next h =>
      refine List.ext_getElem? fun k => ?_
      by_cases hk : k < min (segments.length + 1) 65536
      · obtain ⟨j, hj, hkept, rfl⟩ := exists_last_position hk
        rw [getElem?_latest (hlength ▸ hj) (hlength ▸ hkept), List.getElem?_set, length_latest]
        by_cases hnew : j = segments.length
        · subst hnew
          rw [List.getElem?_concat_length, if_pos rfl, if_pos (by omega)]
        · rw [if_neg (by omega), List.getElem?_append_left (by omega),
            getElem?_latest (by omega) (by omega)]
      · rw [List.getElem?_eq_none, List.getElem?_eq_none]
        · rw [List.length_set, length_latest]
          omega
        · rw [length_latest, hlength]
          omega

/-- The last segments stay. -/
theorem mem_latest_iff :
    b ∈ latest segments ↔ ∃ k, segments[k]? = some b ∧ segments.length ≤ k + 65536 := by
  rw [(perm_latest segments).mem_iff, List.mem_iff_getElem?]
  constructor
  · rintro ⟨k, hk⟩
    rw [List.getElem?_drop] at hk
    exact ⟨_, hk, by omega⟩
  · rintro ⟨k, hk, hkept⟩
    refine ⟨k - (segments.length - 65536), ?_⟩
    rw [List.getElem?_drop, ← hk]
    exact congrArg (segments[·]?) (by omega)

/-- A number that is used stays in use. -/
theorem exists_mem_latest (h : c.lowerBlock visible source = .ok segments) (hb : b ∈ segments) :
    ∃ b' ∈ latest segments, b'.id = b.id := by
  obtain ⟨k, hk⟩ := List.mem_iff_getElem?.1 hb
  have hlt := (List.getElem?_eq_some_iff.1 hk).1
  have hid : b.id ∈ (latest segments).map (·.id) := by
    rw [ids_latest (ids_lowerBlock h), id_of_getElem?_lowerBlock h hk]
    exact List.mem_map_of_mem (List.mem_range.2 (by omega))
  exact List.mem_map.1 hid

section Statements

variable {s : Segments}

/-- Every statement of a block under encoding has a property. -/
def Segments.All (P : Statement → Prop) (s : Segments) : Prop :=
  ∀ b ∈ s.blocks, ∀ p ∈ b.statements, P p.statement

/-- A property of all statements that an instruction leads to, its declarations included. -/
structure Leaves (c : Lowering) (i : Instruction) (P : Statement → Prop) : Prop where
  declares : ∀ p, c.Declares i.variables p → P p.statement
  lowers : ∀ l, c.lower i = .ok l → ∀ st ∈ l.statements, P st

variable {c : Lowering} {P : Statement → Prop}

theorem Segments.All.declareAll {offset : Nat} {vs : List Variable} {s out : Segments}
    (hs : s.All P) (hP : ∀ p, c.Declares vs p → P p.statement)
    (h : c.declareAll offset vs s = .ok out) : out.All P := by
  obtain ⟨declared, rfl, hdeclared, -⟩ := declareAll_eq_ok h
  simp only [Segments.All, Segments.blocks, Block.statements, List.forall_mem_append,
    List.forall_mem_singleton] at hs ⊢
  obtain ⟨hcomplete, ⟨⟨hd, ha⟩, hb⟩, hf⟩ := hs
  exact ⟨hcomplete, ⟨⟨⟨hd, fun p hp => hP p (hdeclared p hp)⟩, ha⟩, hb⟩, hf⟩

theorem Segments.All.assert {statements : List Statement} (hs : s.All P)
    (h : ∀ st ∈ statements, P st) : (s.assert statements).All P := by
  simp only [Segments.All, Segments.blocks, Segments.assert, Block.statements,
    List.forall_mem_append, List.forall_mem_singleton, List.forall_mem_map] at hs ⊢
  obtain ⟨hcomplete, ⟨⟨hd, ha⟩, hb⟩, hf⟩ := hs
  exact ⟨hcomplete, ⟨⟨hd, ha, h⟩, hb⟩, hf⟩

theorem Segments.All.split {groups : List (FaultGroup × Statement)} (hs : s.All P)
    (h : ∀ g ∈ groups, P (g.2.inGroup g.1.ordinal)) : (s.split groups).All P := by
  simp only [Segments.All, Segments.blocks, Segments.split, Block.statements, Array.toList_push,
    List.forall_mem_append, List.forall_mem_singleton, List.forall_mem_map] at hs ⊢
  obtain ⟨hcomplete, ⟨⟨hd, ha⟩, hb⟩, hf⟩ := hs
  exact ⟨⟨hcomplete, ⟨⟨hd, ha⟩, hb⟩, hf, h⟩, by simp⟩

theorem Segments.All.branch {taken notTaken : Statement} (hs : s.All P) (h : P taken ∧ P notTaken) :
    (s.branch taken notTaken).All P := by
  simp only [Segments.All, Segments.blocks, Segments.branch, Block.statements,
    List.forall_mem_append, List.forall_mem_singleton, List.forall_mem_cons] at hs ⊢
  obtain ⟨hcomplete, ⟨⟨hd, ha⟩, hb⟩, hf⟩ := hs
  exact ⟨hcomplete, ⟨⟨hd, ha⟩, hb, h⟩, hf⟩

/-- What holds of the statements of every instruction holds of all statements of a block. -/
theorem all_lowerAll (hgroup : ∀ st k, P st → P (st.inGroup k)) {instructions : List Instruction}
    (hi : ∀ i ∈ instructions, c.Leaves i P) {s out : Segments}
    (h : c.lowerAll instructions s = .ok out) (hs : s.All P) : out.All P := by
  induction instructions generalizing s with
  | nil =>
      obtain rfl := Except.ok.inj h
      exact hs
  | cons i rest ih =>
      rw [List.forall_mem_cons] at hi
      obtain ⟨d, hd, hstep⟩ := lowerAll_cons h
      have hall := hs.declareAll hi.1.declares hd
      obtain ⟨statements, hlower, h⟩ | ⟨groups, semantics, hlower, h⟩ |
        ⟨taken, notTaken, hlower, -, rfl⟩ := hstep
      · exact ih hi.2 h (hall.assert (hi.1.lowers _ hlower))
      · have hnew := hi.1.lowers _ hlower
        simp only [Lowered.statements, List.forall_mem_append, List.forall_mem_map] at hnew
        exact ih hi.2 h ((hall.split fun g hg => hgroup _ _ (hnew.1 g hg)).assert hnew.2)
      · have hnew := hi.1.lowers _ hlower
        simp only [Lowered.statements, List.forall_mem_cons] at hnew
        exact hall.branch ⟨hnew.1, hnew.2.1⟩

/-- What holds of instructions holds of blocks. -/
theorem all_lowerBlock (hgroup : ∀ st k, P st → P (st.inGroup k)) {visible : List Slot}
    {source : MethodGraph.Block} (hi : ∀ i ∈ source.instructions, c.Leaves i P)
    {segments : List Block} (h : c.lowerBlock visible source = .ok segments) {b : Block}
    (hb : b ∈ segments) : ∀ p ∈ b.statements, P p.statement := by
  obtain ⟨s, edges, hs, -, rfl⟩ := lowerBlock_eq_ok h
  have hall := all_lowerAll hgroup hi hs (by simp [Segments.All, Segments.blocks, Block.statements])
  simp only [Segments.All, Segments.blocks, List.forall_mem_append,
    List.forall_mem_singleton] at hall
  rcases List.mem_append.1 hb with hb | hb
  · exact hall.1 b hb
  · obtain rfl := List.mem_singleton.1 hb
    exact hall.2

end Statements

/-- The entry declares the parameters and leads to the first block. -/
theorem lowerEntry_eq_ok {entry : Block} {parameters : List Form.Parameter}
    (h : c.lowerEntry = .ok (entry, parameters)) :
    ∃ declared : List (Placed × Form.Parameter),
      entry = { id := .entry
                declarations := declared.map (·.1)
                successors := [⟨.always, .node 0⟩] } ∧
      parameters = declared.map (·.2) ∧
      ∀ dp ∈ declared, ∃ v ∈ parameterVariables c.method, ∃ s, c.lookup v.type = .ok s ∧
        dp = ((Statement.declaration 0 v.slot v.type (c.symbol v) (.atom s.name)).link .entry,
          { symbol := c.symbol v, sort := .atom s.name }) := by
  simp only [lowerEntry, bind_eq_ok] at h
  obtain ⟨declared, hmap, h⟩ := h
  split at h
  · contradiction
  · obtain ⟨rfl, rfl⟩ := Prod.mk.inj (pure_eq_ok.1 h)
    refine ⟨declared, rfl, rfl, fun dp hdp => ?_⟩
    obtain ⟨v, hv, hdv⟩ := exists_of_mem_of_mapM_eq_ok hmap hdp
    simp only [bind_eq_ok, pure_eq_ok] at hdv
    obtain ⟨d, hd, s, hs, rfl⟩ := hdv
    obtain ⟨s', hs', rfl⟩ := declare_eq_ok hd
    obtain rfl := Except.ok.inj (hs'.symm.trans hs)
    exact ⟨v, List.mem_of_mem_take hv, s', hs', rfl⟩

theorem declares_lowerEntry {entry : Block} {parameters : List Form.Parameter}
    (h : c.lowerEntry = .ok (entry, parameters)) (hp : p ∈ entry.declarations) :
    c.Declares (parameterVariables c.method) p := by
  obtain ⟨declared, rfl, -, hdeclared⟩ := lowerEntry_eq_ok h
  obtain ⟨dp, hdp, rfl⟩ := List.mem_map.1 hp
  obtain ⟨v, hv, s, hs, rfl⟩ := hdeclared dp hdp
  exact ⟨v, hv, 0, s, hs, rfl⟩

/-- Blocks are encoded one by one. -/
theorem lowerBlocks_cons {g : MethodGraph} {cuts : List (Nat × List Nat)} {n : Nat}
    {order : List Nat} {written out : List (List Block)}
    (h : c.lowerBlocks g cuts (n :: order) written = .ok out) :
    ∃ b segments, g.blocks[n]? = some b ∧
      c.lowerBlock (visibleSlots written.flatten (Digraph.chainOf cuts n)) b = .ok segments ∧
      c.lowerBlocks g cuts order (written ++ [segments]) = .ok out := by
  unfold lowerBlocks at h
  split at h
  · contradiction
  · next b hb =>
      obtain ⟨segments, hs, h⟩ := bind_eq_ok.1 h
      exact ⟨b, segments, hb, hs, h⟩

/-- What is written is there from the start, or is the segments of one of the listed blocks. -/
theorem mem_lowerBlocks {g : MethodGraph} {cuts : List (Nat × List Nat)} {order : List Nat}
    {written out : List (List Block)} (h : c.lowerBlocks g cuts order written = .ok out)
    (hsegments : segments ∈ out) :
    segments ∈ written ∨ ∃ n ∈ order, ∃ source visible, g.blocks[n]? = some source ∧
      c.lowerBlock visible source = .ok segments := by
  induction order generalizing written with
  | nil =>
      obtain rfl := Except.ok.inj h
      exact Or.inl hsegments
  | cons n order ih =>
      obtain ⟨source, new, hn, hs, h⟩ := lowerBlocks_cons h
      obtain hmem | ⟨m, hm, hsource⟩ := ih h
      · rcases List.mem_append.1 hmem with hmem | hmem
        · exact Or.inl hmem
        · obtain rfl := List.mem_singleton.1 hmem
          exact Or.inr ⟨n, List.mem_cons_self, source, _, hn, hs⟩
      · exact Or.inr ⟨m, List.mem_cons_of_mem n hm, hsource⟩

end Lowering

/-- The variables of a method: its parameters and what its instructions name. -/
def MethodGraph.variables (g : MethodGraph) : List Variable :=
  Lowering.parameterVariables g.method ++
    g.blocks.flatMap fun b => b.instructions.flatMap Instruction.variables

/-! ## forms -/

namespace Form

variable {b : Block}

/-- What the form of a graph is made of. -/
theorem ofGraph_eq_ok {lookup : SentenceLookup} {g : MethodGraph} {f : Form}
    (h : Form.ofGraph lookup g = .ok f) :
    g.defect? = none ∧ ∃ entry parameters written,
      (Lowering.mk g.method lookup).lowerEntry = .ok (entry, parameters) ∧
      (Lowering.mk g.method lookup).lowerBlocks g (g.digraph.cuts 0) g.order [[entry]] =
        .ok written ∧
      f = { method := g.method
            blocks := withPredecessors (written.flatMap Lowering.latest ++
              [{ id := .regularExit }, { id := .exceptionalExit }])
            parameters
            declared := written.flatten.flatMap Block.declarations
            isStandIn := false } := by
  unfold Form.ofGraph at h
  cases hdefect : g.defect? with
  | some defect => simp [hdefect] at h
  | none =>
      simp only [hdefect, bind_eq_ok] at h
      obtain ⟨⟨entry, parameters⟩, he, written, hw, hf⟩ := h
      split at hf
      · obtain ⟨_, hthrow, -⟩ := bind_eq_ok.1 hf
        exact absurd hthrow throw_ne_ok
      · exact ⟨rfl, entry, parameters, written, he, hw, (pure_eq_ok.1 hf).symm⟩

/-- A block of a form is its entry, a segment of a block of the graph, or an exit; only its
predecessors are noted later. -/
theorem mem_blocks_of_ofGraph {lookup : SentenceLookup} {g : MethodGraph} {f : Form}
    (h : Form.ofGraph lookup g = .ok f) (hb : b ∈ f.blocks) :
    ∃ bare predecessors, b = { bare with predecessors } ∧
      ((Lowering.mk g.method lookup).lowerEntry = .ok (bare, f.parameters) ∨
        (∃ n ∈ g.order, ∃ source visible segments, g.blocks[n]? = some source ∧
          (Lowering.mk g.method lookup).lowerBlock visible source = .ok segments ∧
          bare ∈ segments) ∨
        bare = { id := .regularExit } ∨ bare = { id := .exceptionalExit }) := by
  obtain ⟨-, entry, parameters, written, he, hw, rfl⟩ := ofGraph_eq_ok h
  obtain ⟨bare, hbare, rfl⟩ := List.mem_map.1 hb
  refine ⟨bare, _, rfl, ?_⟩
  rcases List.mem_append.1 hbare with hbare | hbare
  · obtain ⟨segments, hsegments, hbare⟩ := List.mem_flatMap.1 hbare
    have hbare := Lowering.latest_subset segments hbare
    obtain hentry | ⟨n, hn, source, visible, hsource, hs⟩ := Lowering.mem_lowerBlocks hw hsegments
    · obtain rfl := List.mem_singleton.1 hentry
      obtain rfl := List.mem_singleton.1 hbare
      exact Or.inl he
    · exact Or.inr (Or.inl ⟨n, hn, source, visible, segments, hsource, hs, hbare⟩)
  · simpa using Or.inr (Or.inr hbare)

/-- **Statements**: what holds of all that the parameters and the instructions lead to holds of
every statement of a form. -/
theorem forall_statements_of_ofGraph {lookup : SentenceLookup} {g : MethodGraph} {f : Form}
    {P : Statement → Prop} (hgroup : ∀ st k, P st → P (st.inGroup k))
    (hparameters : ∀ p, (Lowering.mk g.method lookup).Declares
      (Lowering.parameterVariables g.method) p → P p.statement)
    (hi : ∀ b ∈ g.blocks, ∀ i ∈ b.instructions, (Lowering.mk g.method lookup).Leaves i P)
    (h : Form.ofGraph lookup g = .ok f) : ∀ p ∈ f.statements, P p.statement := by
  intro p hp
  obtain ⟨b, hb, hp⟩ := List.mem_flatMap.1 hp
  obtain ⟨bare, preds, rfl, hbare | ⟨n, -, source, visible, segments, hn, hs, hbare⟩ | rfl | rfl⟩ :=
    mem_blocks_of_ofGraph h hb
  · have hdeclaration : p ∈ bare.declarations := by
      obtain ⟨declared, rfl, -, -⟩ := Lowering.lowerEntry_eq_ok hbare
      simpa [Block.statements] using hp
    exact hparameters p (Lowering.declares_lowerEntry hbare hdeclaration)
  · exact Lowering.all_lowerBlock hgroup (hi source (List.mem_of_getElem? hn)) hs hbare p hp
  · contradiction
  · contradiction

/-- A valid graph numbers its blocks by their positions. -/
theorem index_eq_of_valid {g : MethodGraph} (h : g.defect? = none) {n : Nat}
    {b : MethodGraph.Block} (hb : g.blocks[n]? = some b) : b.index = n := by
  unfold MethodGraph.defect? at h
  split at h
  · contradiction
  · rw [List.findSome?_eq_none_iff] at h
    have hdefect := h (b, n) (List.mem_zipIdx_iff_getElem?.2 hb)
    by_cases hindex : b.index = n
    · exact hindex
    · simp [MethodGraph.Block.defect?, hindex] at hdefect

theorem of_block?_eq_some {f : Form} {id : BlockId} (h : f.block? id = some b) :
    b ∈ f.blocks ∧ b.id = id :=
  ⟨List.mem_of_find?_eq_some h, by simpa using List.find?_some h⟩

/-- Guards come from branches and faults. -/
theorem guards_subset (b : Block) (condition : Condition) :
    b.guards condition ⊆ b.branchConditions ++ b.faultGuards := by
  intro p hp
  cases condition with
  | always => contradiction
  | taken => exact List.mem_append_left _ (List.mem_filter.1 hp).1
  | notTaken => exact List.mem_append_left _ (List.mem_filter.1 hp).1
  | fault group => exact List.mem_append_right _ (List.mem_filter.1 hp).1

/-- What holds on leaving a block is among its statements. -/
theorem leaving_subset (b : Block) (condition : Condition) :
    b.declarations ++ b.assertions ++ b.guards condition ⊆ b.statements := by
  unfold Block.statements
  rw [List.append_assoc _ b.branchConditions]
  exact List.append_subset.2 ⟨List.subset_append_left _ _,
    List.subset_append_of_subset_right _ (guards_subset b condition)⟩

/-- The entry of a form. -/
theorem entry_of_ofGraph {lookup : SentenceLookup} {g : MethodGraph} {f : Form}
    (h : Form.ofGraph lookup g = .ok f) (hb : b ∈ f.blocks) (hid : b.id.index = .entry) :
    ∃ bare predecessors, (Lowering.mk g.method lookup).lowerEntry = .ok (bare, f.parameters) ∧
      b = { bare with predecessors } := by
  obtain ⟨bare, preds, rfl, he | ⟨n, -, source, visible, segments, -, hs, hbare⟩ | rfl | rfl⟩ :=
    mem_blocks_of_ofGraph h hb
  · exact ⟨bare, preds, he, rfl⟩
  · have hnode := (Lowering.index_of_mem_lowerBlock hs hbare).symm.trans hid
    contradiction
  · contradiction
  · contradiction

/-- A segment of a form is a segment of the block of the graph that it is numbered for. -/
theorem segment_of_ofGraph {lookup : SentenceLookup} {g : MethodGraph} {f : Form}
    (h : Form.ofGraph lookup g = .ok f) (hb : b ∈ f.blocks) {n : Nat} (hid : b.id.index = .node n) :
    n ∈ g.order ∧ ∃ source visible segments bare predecessors, g.blocks[n]? = some source ∧
      source.index = n ∧ (Lowering.mk g.method lookup).lowerBlock visible source = .ok segments ∧
      bare ∈ segments ∧ b = { bare with predecessors } := by
  obtain ⟨hvalid, -⟩ := ofGraph_eq_ok h
  obtain ⟨bare, preds, rfl, he | ⟨m, hm, source, visible, segments, hsource, hs, hbare⟩ |
    rfl | rfl⟩ := mem_blocks_of_ofGraph h hb
  · obtain ⟨declared, rfl, -, -⟩ := Lowering.lowerEntry_eq_ok he
    contradiction
  · have hindex := index_eq_of_valid hvalid hsource
    have hmn : m = n := by
      have hnode := (Lowering.index_of_mem_lowerBlock hs hbare).symm.trans hid
      rw [hindex] at hnode
      exact BlockIndex.node.inj hnode
    subst hmn
    exact ⟨hm, source, visible, segments, bare, preds, hsource, hindex, hs, hbare, rfl⟩
  · contradiction
  · contradiction

/-- **Declarations**: a form declares constants of its method's variables, in the sorts of their
types. -/
theorem declares_of_mem_declared {lookup : SentenceLookup} {g : MethodGraph} {f : Form}
    (h : Form.ofGraph lookup g = .ok f) {p : Placed} (hp : p ∈ f.declared) :
    (Lowering.mk g.method lookup).Declares g.variables p := by
  obtain ⟨-, entry, parameters, written, he, hw, rfl⟩ := ofGraph_eq_ok h
  obtain ⟨b, hb, hp⟩ := List.mem_flatMap.1 hp
  obtain ⟨segments, hsegments, hb⟩ := List.mem_flatten.1 hb
  obtain hentry | ⟨n, -, source, visible, hsource, hs⟩ := Lowering.mem_lowerBlocks hw hsegments
  · obtain rfl := List.mem_singleton.1 hentry
    obtain rfl := List.mem_singleton.1 hb
    exact (Lowering.declares_lowerEntry he hp).mono (List.subset_append_left _ _)
  · refine (Lowering.declares_lowerBlock hs hb hp).mono fun v hv => ?_
    exact List.mem_append_right _ (List.mem_flatMap.2 ⟨source, List.mem_of_getElem? hsource, hv⟩)

/-- What the blocks of a form declare is noted. -/
theorem declarations_subset_declared {lookup : SentenceLookup} {g : MethodGraph} {f : Form}
    (h : Form.ofGraph lookup g = .ok f) (hb : b ∈ f.blocks) :
    b.declarations ⊆ f.declared := by
  obtain ⟨-, entry, parameters, written, -, -, rfl⟩ := ofGraph_eq_ok h
  intro p hp
  obtain ⟨bare, hbare, rfl⟩ := List.mem_map.1 hb
  rcases List.mem_append.1 hbare with hbare | hbare
  · obtain ⟨segments, hsegments, hbare⟩ := List.mem_flatMap.1 hbare
    have hmem := List.mem_flatten.2 ⟨segments, hsegments, Lowering.latest_subset segments hbare⟩
    exact List.mem_flatMap.2 ⟨bare, hmem, hp⟩
  · simp only [List.mem_cons, List.not_mem_nil, or_false] at hbare
    rcases hbare with rfl | rfl <;> contradiction

/-- Only variables of the graph are declared. -/
theorem declares_of_ofGraph {lookup : SentenceLookup} {g : MethodGraph} {f : Form}
    (h : Form.ofGraph lookup g = .ok f) (hb : b ∈ f.blocks) {p : Placed} (hp : p ∈ b.declarations) :
    (Lowering.mk g.method lookup).Declares g.variables p :=
  declares_of_mem_declared h (declarations_subset_declared h hb hp)

/-- A local constant has the symbol of its method in front of a mark. -/
theorem mem_locals_of_ofGraph {lookup : SentenceLookup} {g : MethodGraph} {f : Form}
    (h : Form.ofGraph lookup g = .ok f) {x : String} (hx : x ∈ f.locals) :
    ∃ v ∈ g.variables, (∀ field, v.slot ≠ .staticField field) ∧
      x = g.method.symbol ++ "!" ++ v.slot.text := by
  obtain ⟨p, hp, hlocal⟩ := List.mem_filterMap.1 hx
  obtain ⟨v, hv, offset, s, -, hst⟩ := declares_of_mem_declared h hp
  rw [hst] at hlocal
  cases hslot : v.slot with
  | staticField field => simp [localSymbol?, Statement.declaration, hslot] at hlocal
  | _ =>
      simp only [localSymbol?, Statement.declaration, hslot, Option.some.injEq] at hlocal
      refine ⟨v, hv, by simp [hslot], ?_⟩
      rw [← hlocal, hslot]
      simp [Lowering.symbol, MethodRef.variableSymbol, hslot]

end Form

end Pathwise
