import Mathlib.Data.List.Flatten
import Mathlib.Data.List.Forall2
import Mathlib.Data.List.Infix
import Pathwise.Proofs.Segmentation.Fault

/-!
# Pathwise.Proofs.Segmentation.Block

The segments of one block of a graph. `Lowering.Invariant` says what a step of the
encoder has to keep, and `Invariant.lowerBlock` that it holds of the segments then.

Three invariants are kept: every instruction that can fault has ended a segment,
with an edge for each outcome (`Segments.Split`); the segments hold what the
instructions become, in their order (`Segments.Carries`); and no slot is declared
twice, nor later than where it is first touched (`Segments.Declared`).

Of segments with the same number a form keeps the last. A block with too many of them
loses what its first segment holds (`Lowering.contents_latest_ne`) and declares
(`Lowering.notMem_declaredSlots_latest`).
-/

namespace Pathwise

/-- The edges behind a segment that ends with checks for some faults: to the next segment if none
of them occurs, out of the method if one does. -/
def Block.faultEdges (id : BlockId) (offset : Nat) (kinds : List FaultKind) : List Edge :=
  ⟨.fault { ordinal := 0, fault := none, offset }, id.next⟩ ::
    (kinds.zipIdx 1).map fun q =>
      ⟨.fault { ordinal := q.2, fault := some q.1, offset }, .exceptionalExit⟩

/-- What a block holds, in the order in which it was encoded. -/
def Block.contents (b : Block) : List Statement :=
  (b.assertions ++ b.faultGuards ++ b.branchConditions).map (·.statement)

/-- What an instruction leaves in its block: the guards of its groups stand before what holds if
no fault occurs. -/
def Lowered.contents : Lowered → List Statement
  | .plain statements => statements
  | .faulting groups semantics => groups.map (fun g => g.2.inGroup g.1.ordinal) ++ semantics
  | .branch taken notTaken => [taken, notTaken]

theorem Block.faultEdges_outcomes (id : BlockId) (offset : Nat) (kinds : List FaultKind) :
    (FaultGroup.outcomes offset kinds).map (fun g =>
      (⟨.fault g, if g.fault.isNone then id.next else .exceptionalExit⟩ : Edge)) =
      faultEdges id offset kinds := by
  simp [FaultGroup.outcomes, faultEdges]

namespace Lowering

open MethodGraph (Instruction)

variable {c : Lowering} {visible : List Slot} {source : MethodGraph.Block} {segments : List Block}
  {i : Instruction} {b : Block} {s out : Segments}

/-! ## steps of the encoder -/

/-- Add declarations to the current segment. -/
def Segments.declare (s : Segments) (declared : List Placed) : Segments :=
  { s with
    current := { s.current with declarations := s.current.declarations ++ declared }
    visible := s.visible ++ declared.filterMap (·.statement.slot?) }

/-- Declarations that make some variables visible, and no slot twice. -/
structure DeclaresNew (vs : List Variable) (s : Segments) (declared : List Placed) : Prop where
  placed : ∀ p ∈ declared, p.block = s.current.id
  visible : ∀ v ∈ vs, v.slot ∈ (s.declare declared).visible
  nodup : s.visible.Nodup → (s.declare declared).visible.Nodup

theorem declaresNew_of_declareAll {offset : Nat} {vs : List Variable}
    (h : c.declareAll offset vs s = .ok out) :
    ∃ declared, DeclaresNew vs s declared ∧ out = s.declare declared := by
  obtain ⟨declared, rfl, -, hvisible, hplaced, hnodup⟩ := declareAll_eq_ok h
  exact ⟨declared, ⟨hplaced, hvisible, hnodup⟩, rfl⟩

@[simp]
theorem Segments.complete_assert (s : Segments) (statements : List Statement) :
    (s.assert statements).complete = s.complete := rfl

@[simp]
theorem Segments.complete_branch (s : Segments) (taken notTaken : Statement) :
    (s.branch taken notTaken).complete = s.complete := rfl

/-- What every step of the encoder keeps: `P` while a block is encoded, and `Q` at its end. Both
are about the instructions that are done. -/
structure Invariant (c : Lowering) (P Q : List Instruction → Segments → Prop) : Prop where
  declare : ∀ {done vs s declared}, P done s → DeclaresNew vs s declared →
    P done (s.declare declared)
  plain : ∀ {done i s statements}, P done s → (∀ v ∈ i.variables, v.slot ∈ s.visible) →
    c.lower i = .ok (.plain statements) → P (done ++ [i]) (s.assert statements)
  faulting : ∀ {done i s groups semantics}, P done s → (∀ v ∈ i.variables, v.slot ∈ s.visible) →
    c.lower i = .ok (.faulting groups semantics) →
    P (done ++ [i]) ((s.split groups).assert semantics)
  branch : ∀ {done i s taken notTaken}, P done s → (∀ v ∈ i.variables, v.slot ∈ s.visible) →
    c.lower i = .ok (.branch taken notTaken) → Q (done ++ [i]) (s.branch taken notTaken)
  finish : ∀ {done s}, P done s → Q done s

/-- Invariants hold along instructions. -/
theorem Invariant.lowerAll {P Q : List Instruction → Segments → Prop} (hinv : c.Invariant P Q)
    {done instructions : List Instruction} (h : c.lowerAll instructions s = .ok out)
    (hs : P done s) : Q (done ++ instructions) out := by
  induction instructions generalizing done s with
  | nil =>
      obtain rfl := Except.ok.inj h
      rw [List.append_nil]
      exact hinv.finish hs
  | cons i rest ih =>
      obtain ⟨d, hd, hstep⟩ := lowerAll_cons h
      obtain ⟨declared, hnew, rfl⟩ := declaresNew_of_declareAll hd
      have hdeclared := hinv.declare hs hnew
      rw [List.append_cons]
      obtain ⟨statements, hl, h⟩ | ⟨groups, semantics, hl, h⟩ | ⟨taken, notTaken, hl, rfl, rfl⟩ :=
        hstep
      · exact ih h (hinv.plain hdeclared hnew.visible hl)
      · exact ih h (hinv.faulting hdeclared hnew.visible hl)
      · rw [List.append_nil]
        exact hinv.branch hdeclared hnew.visible hl

/-- A block of the graph before its first instruction. -/
def Segments.start (index : Nat) (visible : List Slot) : Segments :=
  { complete := #[], current := { id := .node index }, visible }

/-- Invariants hold at the end of a block. -/
theorem Invariant.lowerBlock {P Q : List Instruction → Segments → Prop} (hinv : c.Invariant P Q)
    (h : c.lowerBlock visible source = .ok segments)
    (hstart : P [] (.start source.index visible)) :
    ∃ s edges, Q source.instructions s ∧ c.exits source = .ok edges ∧
      segments = s.complete.toList ++ [{ s.current with
        successors := s.current.successors ++ edges }] := by
  obtain ⟨s, edges, hs, he, hsegments⟩ := lowerBlock_eq_ok h
  exact ⟨s, edges, hinv.lowerAll hs hstart, he, hsegments⟩

/-! ## places -/

/-- All that a segment holds is placed in it. -/
def Segments.InPlace (s : Segments) : Prop := ∀ b ∈ s.blocks, ∀ p ∈ b.statements, p.block = b.id

theorem invariant_placed (c : Lowering) :
    c.Invariant (fun _ s => s.InPlace) (fun _ s => s.InPlace) where
  declare hs hnew := by
    simp only [Segments.InPlace, Segments.blocks, Segments.declare, Block.statements,
      List.forall_mem_append, List.forall_mem_singleton] at hs ⊢
    obtain ⟨hcomplete, ⟨⟨hd, ha⟩, hb⟩, hf⟩ := hs
    exact ⟨hcomplete, ⟨⟨⟨hd, hnew.placed⟩, ha⟩, hb⟩, hf⟩
  plain hs _ _ := by
    simp only [Segments.InPlace, Segments.blocks, Segments.assert, Block.statements,
      List.forall_mem_append, List.forall_mem_singleton, List.forall_mem_map] at hs ⊢
    obtain ⟨hcomplete, ⟨⟨hd, ha⟩, hb⟩, hf⟩ := hs
    exact ⟨hcomplete, ⟨⟨hd, ha, fun _ _ => rfl⟩, hb⟩, hf⟩
  faulting hs _ _ := by
    simp only [Segments.InPlace, Segments.blocks, Segments.split, Segments.assert, Block.statements,
      Array.toList_push, List.forall_mem_append, List.forall_mem_singleton,
      List.forall_mem_map] at hs ⊢
    obtain ⟨hcomplete, ⟨⟨hd, ha⟩, hb⟩, hf⟩ := hs
    exact ⟨⟨hcomplete, ⟨⟨hd, ha⟩, hb⟩, hf, fun _ _ => rfl⟩, by simp [Statement.link]⟩
  branch hs _ _ := by
    simp only [Segments.InPlace, Segments.blocks, Segments.branch, Block.statements,
      List.forall_mem_append, List.forall_mem_singleton, List.forall_mem_cons] at hs ⊢
    obtain ⟨hcomplete, ⟨⟨hd, ha⟩, hb⟩, hf⟩ := hs
    exact ⟨hcomplete, ⟨⟨hd, ha⟩, hb, rfl, rfl⟩, hf⟩
  finish hs := hs

/-- Statements name their block. -/
theorem placed_lowerBlock (h : c.lowerBlock visible source = .ok segments) (hb : b ∈ segments) :
    ∀ p ∈ b.statements, p.block = b.id := by
  obtain ⟨s, edges, hs, -, rfl⟩ := (invariant_placed c).lowerBlock h
    (by simp [Segments.InPlace, Segments.blocks, Segments.start, Block.statements])
  simp only [Segments.InPlace, Segments.blocks, List.forall_mem_append,
    List.forall_mem_singleton] at hs
  rcases List.mem_append.1 hb with hb | hb
  · exact hs.1 b hb
  · rw [List.mem_singleton.1 hb]
    exact hs.2

/-! ## edges -/

/-- A segment that an instruction has ended: it has a group of guards and an edge for each
outcome. -/
structure EndsWith (c : Lowering) (i : Instruction) (b : Block) : Prop where
  edges : b.successors = Block.faultEdges b.id i.offset (c.checked i)
  groups : b.faultGuards.map (·.statement.group) = List.range ((c.checked i).length + 1)

/-- Every instruction that can fault has ended a segment. -/
structure Segments.Split (c : Lowering) (done : List Instruction) (s : Segments) : Prop where
  complete : List.Forall₂ c.EndsWith (done.filter c.faults) s.complete.toList
  successors : s.current.successors = []
  faultGuards : s.current.faultGuards = []

theorem Segments.Split.endsWith {done : List Instruction} {s : Segments} (hs : s.Split c done)
    {groups : List (FaultGroup × Statement)}
    (h : groups.map (·.1) = FaultGroup.outcomes i.offset (c.checked i))
    (hb : (s.split groups).complete = s.complete.push b) : c.EndsWith i b := by
  obtain rfl := (Array.push_inj_right.1 hb)
  constructor
  · rw [← Block.faultEdges_outcomes, ← h, hs.successors, List.map_map]
    rfl
  · rw [← FaultGroup.ordinals_outcomes i.offset, ← h, hs.faultGuards, List.map_map]
    simp [Statement.link, Statement.inGroup, Function.comp_def]

/-- Each fault ends a segment. -/
theorem invariant_split (c : Lowering) : c.Invariant (Segments.Split c) (Segments.Split c) where
  declare hs _ := ⟨hs.complete, hs.successors, hs.faultGuards⟩
  plain hs _ hl := by
    refine ⟨?_, hs.successors, hs.faultGuards⟩
    simpa [faults_of_plain hl] using hs.complete
  faulting {done i s groups semantics} hs _ hl := by
    refine ⟨?_, rfl, rfl⟩
    rw [List.filter_append, List.filter_singleton, faults_of_faulting hl, Segments.complete_assert,
      Segments.split, Array.toList_push]
    exact List.rel_append hs.complete (.cons (hs.endsWith (checks_lower hl).2 rfl) .nil)
  branch hs _ hl := by
    refine ⟨?_, hs.successors, hs.faultGuards⟩
    simpa [faults_of_branch hl] using hs.complete
  finish hs := hs

/-- The segments of a block: as many as instructions that can fault end one, and one more. -/
theorem split_lowerBlock (h : c.lowerBlock visible source = .ok segments) :
    ∃ complete last, segments = complete ++ [last] ∧
      List.Forall₂ c.EndsWith (source.instructions.filter c.faults) complete ∧
      c.exits source = .ok last.successors := by
  obtain ⟨s, edges, hs, he, rfl⟩ := (invariant_split c).lowerBlock h ⟨.nil, rfl, rfl⟩
  exact ⟨s.complete.toList, _, rfl, hs.complete, by simpa [hs.successors] using he⟩

/-- One segment more than faults. -/
theorem length_lowerBlock (h : c.lowerBlock visible source = .ok segments) :
    segments.length = c.faultCount source + 1 := by
  obtain ⟨complete, last, rfl, hcomplete, -⟩ := split_lowerBlock h
  rw [List.length_append, ← hcomplete.length_eq, ← List.countP_eq_length_filter]
  rfl

/-- An instruction that can fault ends the segment with the number of such instructions before
it. -/
theorem endsWith_of_lowerBlock (h : c.lowerBlock visible source = .ok segments) {k : Nat}
    (hi : (source.instructions.filter c.faults)[k]? = some i) (hb : segments[k]? = some b) :
    c.EndsWith i b := by
  obtain ⟨complete, last, rfl, hcomplete, -⟩ := split_lowerBlock h
  obtain ⟨hk, rfl⟩ := List.getElem?_eq_some_iff.1 hi
  have hk' : k < complete.length := hcomplete.length_eq ▸ hk
  rw [List.getElem?_append_left hk', List.getElem?_eq_getElem hk'] at hb
  obtain rfl := Option.some.inj hb
  exact hcomplete.get hk hk'

/-- The last segment has the exits. -/
theorem exits_of_lowerBlock (h : c.lowerBlock visible source = .ok segments)
    (hb : segments[c.faultCount source]? = some b) : c.exits source = .ok b.successors := by
  obtain ⟨complete, last, rfl, hcomplete, hexits⟩ := split_lowerBlock h
  rw [faultCount, List.countP_eq_length_filter, hcomplete.length_eq,
    List.getElem?_concat_length] at hb
  rwa [← Option.some.inj hb]

/-! ## contents -/

/-- The segments hold what the instructions become, in their order. -/
def Segments.Carries (c : Lowering) (done : List Instruction) (s : Segments) : Prop :=
  ∃ lowered, done.mapM c.lower = .ok lowered ∧
    s.blocks.flatMap Block.contents = lowered.flatMap Lowered.contents

theorem Segments.Carries.snoc {done : List Instruction} (hs : s.Carries c done) {l : Lowered}
    (hl : c.lower i = .ok l)
    (hout : out.blocks.flatMap Block.contents = s.blocks.flatMap Block.contents ++ l.contents) :
    out.Carries c (done ++ [i]) := by
  obtain ⟨lowered, hlowered, hcontents⟩ := hs
  refine ⟨lowered ++ [l], ?_, by simp [hout, hcontents]⟩
  simp only [List.mapM_append, List.mapM_cons, List.mapM_nil, hlowered, hl]
  rfl

/-- Only branches become branches. -/
theorem opcode_ne_branch {l : Lowered} (hl : c.lower i = .ok l)
    (hne : ∀ taken notTaken, l ≠ .branch taken notTaken) (test : BranchTest) :
    i.opcode ≠ .branch test := by
  intro hop
  obtain ⟨_, _, _, _, -, -, -, -, hbranch⟩ := lower_branch hop hl
  exact hne _ _ hbranch

/-- A block whose last instruction is still to come: none was a branch. -/
structure Segments.Filling (c : Lowering) (done : List Instruction) (s : Segments) : Prop where
  carries : s.Carries c done
  faultGuards : s.current.faultGuards = []
  branchConditions : s.current.branchConditions = []
  branches : ∀ i ∈ done, ∀ test, i.opcode ≠ .branch test

/-- A complete block: at most its last instruction is a branch. -/
structure Segments.Filled (c : Lowering) (done : List Instruction) (s : Segments) : Prop where
  carries : s.Carries c done
  branches : ∀ i ∈ done.dropLast, ∀ test, i.opcode ≠ .branch test

/-- Contents stay in order. -/
theorem invariant_filling (c : Lowering) :
    c.Invariant (Segments.Filling c) (Segments.Filled c) where
  declare hs _ := by
    refine ⟨?_, hs.faultGuards, hs.branchConditions, hs.branches⟩
    simpa [Segments.Carries, Segments.blocks, Segments.declare, Block.contents] using hs.carries
  plain {done i s statements} hs _ hl := by
    refine ⟨hs.carries.snoc hl ?_, hs.faultGuards, hs.branchConditions, ?_⟩
    · simp [Segments.blocks, Segments.assert, Block.contents, Lowered.contents, hs.faultGuards,
        hs.branchConditions, Statement.link, Function.comp_def]
    · exact List.forall_mem_append.2 ⟨hs.branches,
        List.forall_mem_singleton.2 (opcode_ne_branch hl (by simp))⟩
  faulting {done i s groups semantics} hs _ hl := by
    refine ⟨hs.carries.snoc hl ?_, rfl, rfl, ?_⟩
    · simp [Segments.blocks, Segments.split, Segments.assert, Block.contents, Lowered.contents,
        hs.faultGuards, hs.branchConditions, Statement.link, Function.comp_def]
    · exact List.forall_mem_append.2 ⟨hs.branches,
        List.forall_mem_singleton.2 (opcode_ne_branch hl (by simp))⟩
  branch {done i s taken notTaken} hs _ hl := by
    refine ⟨hs.carries.snoc hl ?_, by simpa using hs.branches⟩
    simp [Segments.blocks, Segments.branch, Block.contents, Lowered.contents, hs.faultGuards,
      hs.branchConditions, Statement.link]
  finish hs := ⟨hs.carries, fun i hi => hs.branches i (List.mem_of_mem_dropLast hi)⟩

/-- What the segments of a block hold. -/
theorem filled_lowerBlock (h : c.lowerBlock visible source = .ok segments) :
    (∃ lowered, source.instructions.mapM c.lower = .ok lowered ∧
      segments.flatMap Block.contents = lowered.flatMap Lowered.contents) ∧
    ∀ i ∈ source.instructions.dropLast, ∀ test, i.opcode ≠ .branch test := by
  obtain ⟨s, edges, ⟨⟨lowered, hlowered, hcontents⟩, hbranches⟩, -, rfl⟩ :=
    (invariant_filling c).lowerBlock h ⟨⟨[], rfl, rfl⟩, rfl, rfl, by simp⟩
  refine ⟨⟨lowered, hlowered, ?_⟩, hbranches⟩
  rw [← hcontents]
  simp [Segments.blocks, Block.contents]

/-- Without numbers for all segments, what the first one holds is lost. -/
theorem contents_latest_ne (h : c.lowerBlock visible source = .ok segments)
    (hmany : 65536 ≤ c.faultCount source) :
    (latest segments).flatMap Block.contents ≠ segments.flatMap Block.contents := by
  have hlength := length_lowerBlock h
  obtain ⟨complete, last, rfl, hcomplete, -⟩ := split_lowerBlock h
  cases complete with
  | nil =>
      rw [List.nil_append, List.length_singleton] at hlength
      omega
  | cons first rest =>
      obtain ⟨i, _, hfirst, -, -⟩ := List.forall₂_cons_right_iff.1 hcomplete
      have hguards := congrArg List.length hfirst.groups
      have hcontents : 0 < first.contents.length := by
        simp only [List.length_map, List.length_range] at hguards
        simp only [Block.contents, List.length_map, List.length_append]
        omega
      obtain ⟨replaced, hreplaced⟩ : ∃ replaced,
          (first :: rest ++ [last]).length - 65536 = replaced + 1 :=
        Nat.exists_eq_add_one.2 (by omega)
      -- the segments that are kept all stand behind the first one
      have hkept : ((first :: rest ++ [last]).drop (replaced + 1)).Sublist (rest ++ [last]) :=
        List.drop_sublist replaced (rest ++ [last])
      intro heq
      have hsum := congrArg List.length heq
      rw [((perm_latest _).flatMap_right _).length_eq, hreplaced] at hsum
      have hle := (hkept.flatMap Block.contents).length_le
      rw [List.cons_append, List.flatMap_cons, List.length_append] at hsum
      rw [List.cons_append] at hle
      omega

/-! ## declarations -/

/-- The slots that segments declare, each with the position of its segment. -/
def slotsOf (segments : List Block) : List (Nat × Slot) :=
  segments.zipIdx.flatMap fun q => q.1.declaredSlots.map (q.2, ·)

theorem map_snd_slotsOf (segments : List Block) :
    (slotsOf segments).map (·.2) = segments.flatMap Block.declaredSlots := by
  simp only [slotsOf, List.map_flatMap, List.map_map, Function.comp_def, List.map_id']
  rw [← List.flatMap_map, List.zipIdx_map_fst]

/-- The slots that a block under encoding declares. -/
def Segments.slots (s : Segments) : List (Nat × Slot) := slotsOf s.blocks

@[simp]
theorem Segments.slots_assert (s : Segments) (statements : List Statement) :
    (s.assert statements).slots = s.slots := by
  simp [slots, slotsOf, blocks, assert, Block.declaredSlots, List.zipIdx_append]

@[simp]
theorem Segments.slots_branch (s : Segments) (taken notTaken : Statement) :
    (s.branch taken notTaken).slots = s.slots := by
  simp [slots, slotsOf, blocks, branch, Block.declaredSlots, List.zipIdx_append]

@[simp]
theorem Segments.slots_split (s : Segments) (groups : List (FaultGroup × Statement)) :
    (s.split groups).slots = s.slots := by
  simp [slots, slotsOf, blocks, split, Block.declaredSlots, List.zipIdx_append]

@[simp]
theorem Segments.slots_declare (s : Segments) (declared : List Placed) :
    (s.declare declared).slots =
      s.slots ++ (declared.filterMap (·.statement.slot?)).map (s.complete.size, ·) := by
  simp [slots, slotsOf, blocks, declare, Block.declaredSlots, List.zipIdx_append]

/-- Slots are declared once, and no later than in the segment of the first instruction that touches
them. -/
structure Segments.Declared (c : Lowering) (start : List Slot) (done : List Instruction)
    (s : Segments) : Prop where
  count : s.complete.size = done.countP c.faults
  le_count : ∀ q ∈ s.slots, q.1 ≤ done.countP c.faults
  visible : s.visible = start ++ s.slots.map (·.2)
  nodup : start.Nodup → s.visible.Nodup
  touched : ∀ (k : Nat) (i : Instruction), done[k]? = some i → ∀ v ∈ i.variables,
    v.slot ∈ start ∨ ∃ j ≤ c.segmentOf done k, (j, v.slot) ∈ s.slots

namespace Segments.Declared

variable {start : List Slot} {done : List Instruction} {s : Segments}

theorem declare (hs : s.Declared c start done) {vs : List Variable} {declared : List Placed}
    (hnew : DeclaresNew vs s declared) : (s.declare declared).Declared c start done where
  count := hs.count
  le_count := by
    rw [slots_declare, List.forall_mem_append, List.forall_mem_map]
    exact ⟨hs.le_count, fun _ _ => hs.count.le⟩
  visible := by
    rw [slots_declare]
    simp [Segments.declare, hs.visible, Function.comp_def]
  nodup hstart := hnew.nodup (hs.nodup hstart)
  touched k i hi v hv := by
    rw [slots_declare]
    refine (hs.touched k i hi v hv).imp_right fun hslot => ?_
    obtain ⟨j, hj, hmem⟩ := hslot
    exact ⟨j, hj, List.mem_append_left _ hmem⟩

/-- An instruction whose variables are visible adds nothing to what is declared. -/
theorem snoc (hs : s.Declared c start done) {i : Instruction} {out : Segments}
    (hv : ∀ v ∈ i.variables, v.slot ∈ s.visible) (hslots : out.slots = s.slots)
    (hvisible : out.visible = s.visible)
    (hcount : out.complete.size = (done ++ [i]).countP c.faults) :
    out.Declared c start (done ++ [i]) where
  count := hcount
  le_count q hq := by
    rw [List.countP_append]
    exact Nat.le_add_right_of_le (hs.le_count q (hslots ▸ hq))
  visible := by rw [hvisible, hslots, hs.visible]
  nodup hstart := hvisible ▸ hs.nodup hstart
  touched k j hj v hvj := by
    rw [hslots]
    by_cases hk : k < done.length
    · rw [List.getElem?_append_left hk] at hj
      rw [segmentOf, List.take_append_of_le_length hk.le]
      exact hs.touched k j hj v hvj
    · -- the new instruction: what is visible has been declared so far
      obtain ⟨hlt, -⟩ := List.getElem?_eq_some_iff.1 hj
      rw [List.length_append, List.length_singleton] at hlt
      obtain rfl : k = done.length := by omega
      rw [List.getElem?_concat_length] at hj
      obtain rfl := Option.some.inj hj
      have hmem := hv v hvj
      rw [hs.visible, List.mem_append] at hmem
      refine hmem.imp_right fun hmem => ?_
      obtain ⟨q, hq, hslot⟩ := List.mem_map.1 hmem
      rw [segmentOf, List.take_left, ← hslot]
      exact ⟨q.1, hs.le_count q hq, hq⟩

end Segments.Declared

/-- Slots are declared in time. -/
theorem invariant_declared (c : Lowering) (start : List Slot) :
    c.Invariant (Segments.Declared c start) (Segments.Declared c start) where
  declare hs hnew := hs.declare hnew
  plain hs hv hl := by
    refine hs.snoc hv (by simp) rfl ?_
    simpa [faults_of_plain hl, Segments.assert] using hs.count
  faulting hs hv hl := by
    refine hs.snoc hv (by simp) rfl ?_
    simpa [faults_of_faulting hl, Segments.assert, Segments.split] using hs.count
  branch hs hv hl := by
    refine hs.snoc hv (by simp) rfl ?_
    simpa [faults_of_branch hl, Segments.branch] using hs.count
  finish hs := hs

/-- What the segments of a block declare, given what is visible at its start. -/
theorem declared_lowerBlock (h : c.lowerBlock visible source = .ok segments) :
    (visible.Nodup → (visible ++ segments.flatMap Block.declaredSlots).Nodup) ∧
    ∀ (k : Nat) (i : Instruction), source.instructions[k]? = some i → ∀ v ∈ i.variables,
      v.slot ∈ visible ∨ ∃ j ≤ c.segmentOf source.instructions k, ∃ b, segments[j]? = some b ∧
        v.slot ∈ b.declaredSlots := by
  obtain ⟨s, edges, hs, -, rfl⟩ := (invariant_declared c visible).lowerBlock h
    ⟨rfl, by simp [Segments.slots, slotsOf, Segments.blocks, Segments.start, Block.declaredSlots],
      by simp [Segments.slots, slotsOf, Segments.blocks, Segments.start, Block.declaredSlots], id,
      by simp⟩
  have hslots : s.slots = slotsOf (s.complete.toList ++ [{ s.current with
      successors := s.current.successors ++ edges }]) := by
    simp [Segments.slots, slotsOf, Segments.blocks, Block.declaredSlots, List.zipIdx_append]
  constructor
  · intro hnodup
    have hall := hs.nodup hnodup
    rwa [hs.visible, hslots, map_snd_slotsOf] at hall
  · intro k i hi v hv
    refine (hs.touched k i hi v hv).imp_right fun hslot => ?_
    obtain ⟨j, hj, hmem⟩ := hslot
    rw [hslots] at hmem
    obtain ⟨q, hq, hmem⟩ := List.mem_flatMap.1 hmem
    obtain ⟨slot, hslot, heq⟩ := List.mem_map.1 hmem
    obtain ⟨rfl, rfl⟩ := Prod.mk.inj heq
    exact ⟨q.2, hj, q.1, List.mem_zipIdx_iff_getElem?.1 hq, hslot⟩

/-- What a segment declares that is replaced later is declared no more. -/
theorem notMem_declaredSlots_latest (h : c.lowerBlock visible source = .ok segments)
    (hvisible : visible.Nodup) {k : Nat} (hi : source.instructions[k]? = some i)
    (hlost : c.segmentOf source.instructions k + 65536 ≤ c.faultCount source) {v : Variable}
    (hv : v ∈ i.variables) (hnew : v.slot ∉ visible) :
    ∀ b ∈ latest segments, v.slot ∉ b.declaredSlots := by
  have hlength := length_lowerBlock h
  obtain ⟨hnodup, hdeclared⟩ := declared_lowerBlock h
  obtain ⟨j, hj, b, hb, hslot⟩ := (hdeclared k i hi v hv).resolve_left hnew
  obtain ⟨hlt, rfl⟩ := List.getElem?_eq_some_iff.1 hb
  intro b' hb' hslot'
  have hb' := (perm_latest segments).mem_iff.1 hb'
  have hafter : b' ∈ segments.drop (j + 1) :=
    (List.drop_subset_drop_left segments (show j + 1 ≤ segments.length - 65536 by omega)) hb'
  -- the two segments would declare the slot twice
  have hsplit := hnodup hvisible
  rw [← List.take_append_drop (j + 1) segments, List.flatMap_append] at hsplit
  have hdisjoint := (List.nodup_append.1 (List.nodup_append.1 hsplit).2.1).2.2
  refine hdisjoint v.slot (List.mem_flatMap.2 ⟨segments[j], ?_, hslot⟩) v.slot
    (List.mem_flatMap.2 ⟨b', hafter, hslot'⟩) rfl
  exact List.mem_take_iff_getElem.2 ⟨j, by omega, rfl⟩

end Lowering

end Pathwise
