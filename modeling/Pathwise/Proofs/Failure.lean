import Pathwise.Proofs.Coverable.Form
import Pathwise.Proofs.Dominance
import Pathwise.Proofs.Mentions

/-!
# Pathwise.Proofs.Failure

Which errors the encoding of a graph can raise. An instruction raises errors of its
own, or forwards one that a look-up has raised (`Lowering.Forwards`). Two other errors
are about the frame around the blocks: that a listed block is missing, and that an
edge leads to no block. But the blocks that are listed are there, and the edges lead
to listed blocks, so a whole graph raises errors of its own or of a look-up as well
(`Form.forwards_ofGraph`).

As the types that a graph mentions are all that matters of a source of sentences, it
is enough that the source answers for these (`Form.mentionedTypes_suffice`).
-/

namespace Pathwise

namespace LoweringError

/-- The errors of the frame around the blocks: a listed block is missing, or an edge leads to no
block. -/
def IsFraming : LoweringError → Prop
  | .missingBlock _ | .danglingEdge .. => True
  | _ => False

/-- The errors that the parameters, an instruction, the end of a block or a malformed graph give
rise to. -/
def IsOwn : LoweringError → Prop
  | .sentence _ | .missingBlock _ | .danglingEdge .. => False
  | _ => True

theorem IsFraming.not_isOwn {err : LoweringError} (h : err.IsFraming) : ¬err.IsOwn := by
  cases err <;> first | exact id | exact h.elim

end LoweringError

namespace Lowering

open MethodGraph (Instruction)

variable {c : Lowering} {i : Instruction} {α β : Type}

/-- A computation that raises only errors of its own, and those that a look-up has raised. -/
def Forwards (c : Lowering) (x : Except LoweringError α) : Prop :=
  ∀ err, x = .error err → err.IsOwn ∨ ∃ t, c.lookup t = .error err

namespace Forwards

variable {f : α → Except LoweringError β}

theorem ok (a : α) : c.Forwards (.ok a) := by
  intro err h
  contradiction

theorem pure (a : α) : c.Forwards (pure a) := ok a

/-- Errors are forwarded in sequence. -/
theorem bind_of_ok {x : Except LoweringError α} (hx : c.Forwards x)
    (hf : ∀ a, x = .ok a → c.Forwards (f a)) : c.Forwards (x >>= f) := by
  intro err h
  cases x with
  | error err' =>
      obtain rfl : err' = err := Except.error.inj h
      exact hx err' rfl
  | ok a => exact hf a rfl err h

theorem bind {x : Except LoweringError α} (hx : c.Forwards x) (hf : ∀ a, c.Forwards (f a)) :
    c.Forwards (x >>= f) := hx.bind_of_ok fun a _ => hf a

theorem error {err : LoweringError} (h : err.IsOwn) :
    c.Forwards (.error err : Except LoweringError α) := by
  rintro _ ⟨⟩
  exact Or.inl h

theorem throw {err : LoweringError} (h : err.IsOwn) :
    c.Forwards (throw err : Except LoweringError α) := error h

theorem ite {p : Prop} [Decidable p] {x y : Except LoweringError α} (hx : c.Forwards x)
    (hy : c.Forwards y) : c.Forwards (if p then x else y) := by
  split
  · exact hx
  · exact hy

theorem mapM (hf : ∀ a, c.Forwards (f a)) {l : List α} :
    c.Forwards (l.mapM f) := by
  induction l with
  | nil => exact pure []
  | cons a l ih =>
      rw [List.mapM_cons]
      exact bind (hf a) fun _ => bind ih fun _ => pure _

theorem lookup (t : TypeRef) : c.Forwards (c.lookup t) := fun _ h => Or.inr ⟨t, h⟩

theorem apply (s : Sentence) (op : Operation) : c.Forwards (apply s op) := by
  intro err h
  unfold Lowering.apply at h
  cases hs : s.apply op with
  | ok e =>
      rw [hs] at h
      contradiction
  | error cause =>
      rw [hs] at h
      obtain rfl : LoweringError.unsupportedOperation cause = err := Except.error.inj h
      exact Or.inl trivial

theorem operand (k : Nat) : c.Forwards (c.operand i k) := by
  unfold Lowering.operand
  split
  · exact ok _
  · exact error trivial

theorem target : c.Forwards (c.target i) := by
  unfold Lowering.target
  split
  · exact ok _
  · exact error trivial

theorem coerce (v : Variable) (type : TypeRef) : c.Forwards (c.coerce v type) :=
  ite (ok _) (bind (lookup _) fun _ => apply _ _)

theorem equate (v : Variable) (e : Sexp) : c.Forwards (c.equate v e) :=
  bind (lookup _) fun _ => apply _ _

theorem defining (e : Sexp) : c.Forwards (c.defining i e) :=
  bind target fun _ => bind (equate _ _) fun _ => pure _

theorem arguments (vs : List (Variable × TypeRef)) : c.Forwards (c.arguments vs) := by
  induction vs with
  | nil => exact ok _
  | cons v vs ih => exact bind (coerce _ _) fun _ => bind ih fun _ => pure _

theorem nullCheck (s : Sentence) (a : Sexp) : c.Forwards (nullCheck s a) :=
  bind (apply _ _) fun _ => bind (apply _ _) fun _ => pure _

theorem elementGuards (s : Sentence) (array index : Sexp) :
    c.Forwards (elementGuards s array index) :=
  bind (apply _ _) fun _ => bind (apply _ _) fun _ => bind (apply _ _) fun _ =>
    bind (apply _ _) fun _ => bind (nullCheck _ _) fun _ => pure _

/-- Calls forward errors. -/
theorem lowerCall (callee : MethodRef) (virtualDispatch : Bool) :
    c.Forwards (c.lowerCall i callee virtualDispatch) := by
  unfold Lowering.lowerCall
  simp only [pure_bind]
  refine ite (error trivial) (bind (arguments _) fun _ => ite (pure _) ?_)
  refine bind (operand 0) fun receiver => bind (lookup _) fun s => ite ?_ ?_
  · exact bind (nullCheck _ _) fun _ => bind (apply _ _) fun _ =>
      ite (bind (apply _ _) fun _ => pure _) (pure _)
  · exact ite (bind (apply _ _) fun _ => pure _) (pure _)

/-- Instructions forward errors. -/
theorem lower : c.Forwards (c.lower i) := by
  unfold Lowering.lower
  cases i.opcode with
  | assign =>
      exact bind target fun _ => bind (operand 0) fun _ => bind (coerce _ _) fun _ =>
        bind (equate _ _) fun _ => pure _
  | constant literal =>
      exact bind target fun _ => bind (lookup _) fun _ => bind (apply _ _) fun _ => pure _
  | binary op | compare op =>
      exact bind (operand 0) fun _ => bind (operand 1) fun _ => bind (lookup _) fun _ =>
        bind (coerce _ _) fun _ => bind (apply _ _) fun _ => bind (defining _) fun _ => pure _
  | not =>
      exact bind (operand 0) fun _ => bind (lookup _) fun _ => bind (apply _ _) fun _ =>
        bind (defining _) fun _ => pure _
  | branch test =>
      exact bind (operand 0) fun _ => bind (lookup _) fun _ => bind (apply _ _) fun _ =>
        bind (apply _ _) fun _ => pure _
  | jump =>
      exact ok _
  | call callee virtualDispatch =>
      exact lowerCall callee virtualDispatch
  | newObject constructor =>
      refine bind target fun _ => bind (lookup _) fun _ => bind (apply _ _) fun _ => ?_
      exact ite (throw trivial) (bind (arguments _) fun _ => pure _)
  | newArray element =>
      exact bind target fun _ => bind (operand 0) fun _ => bind (lookup _) fun _ =>
        bind (apply _ _) fun _ => bind (lookup _) fun _ => bind (apply _ _) fun _ =>
        bind (coerce _ _) fun _ => bind (apply _ _) fun _ => bind (apply _ _) fun _ => pure _
  | arrayLength =>
      exact bind (operand 0) fun _ => bind (lookup _) fun _ => bind (apply _ _) fun _ =>
        bind (defining _) fun _ => bind (nullCheck _ _) fun _ => bind (apply _ _) fun _ => pure _
  | loadElement =>
      exact bind (operand 0) fun _ => bind (operand 1) fun _ => bind (lookup _) fun _ =>
        bind (coerce _ _) fun _ => bind (apply _ _) fun _ => bind (defining _) fun _ =>
        bind (elementGuards _ _ _) fun _ => pure _
  | storeElement =>
      exact bind (operand 0) fun _ => bind (operand 1) fun _ => bind (operand 2) fun _ =>
        bind (lookup _) fun _ => bind (coerce _ _) fun _ => bind (coerce _ _) fun _ =>
        bind (apply _ _) fun _ => bind (defining _) fun _ =>
        bind (elementGuards _ _ _) fun _ => pure _
  | loadField field =>
      exact bind (operand 0) fun _ => bind (lookup _) fun _ => bind (apply _ _) fun _ =>
        bind (defining _) fun _ => pure _
  | storeField field =>
      refine bind (operand 0) fun _ => bind (operand 1) fun _ => bind (lookup _) fun s => ?_
      split
      · exact throw trivial
      · exact bind (coerce _ _) fun _ => bind (apply _ _) fun _ => bind (defining _) fun _ => pure _
  | ret =>
      exact ite (bind (operand 0) fun _ => bind (coerce _ _) fun _ => pure _) (pure _)
  | throw =>
      exact bind (operand 0) fun _ => pure _
  | convert type =>
      exact bind (operand 0) fun _ => bind (coerce _ _) fun _ => bind (defining _) fun _ => pure _
  | isInstance type =>
      exact bind (operand 0) fun _ => bind (lookup _) fun _ => bind (apply _ _) fun _ =>
        bind (defining _) fun _ => pure _
  | unsupported name =>
      exact error trivial

theorem declare (offset : Nat) (v : Variable) : c.Forwards (c.declare offset v) :=
  bind (lookup _) fun _ => pure _

theorem declareAll (offset : Nat) (vs : List Variable) (s : Segments) :
    c.Forwards (c.declareAll offset vs s) := by
  induction vs generalizing s with
  | nil => exact ok s
  | cons v vs ih => exact ite (ih s) (bind (declare offset v) fun _ => ih _)

/-- Sequences forward errors. -/
theorem lowerAll (instructions : List Instruction) (s : Segments) :
    c.Forwards (c.lowerAll instructions s) := by
  induction instructions generalizing s with
  | nil => exact ok s
  | cons i rest ih =>
      refine bind (declareAll _ _ s) fun d => bind lower fun lowered => ?_
      cases lowered with
      | plain statements => exact ih _
      | faulting groups semantics => exact ih _
      | branch taken notTaken => exact ite (ih _) (throw trivial)

theorem exits (b : MethodGraph.Block) : c.Forwards (c.exits b) := by
  unfold Lowering.exits
  split
  · split
    · exact ok _
    · exact error trivial
  · exact ok _
  · exact ok _
  · split
    · exact ok _
    · exact ok _
    · exact error trivial

/-- Blocks forward errors. -/
theorem lowerBlock (visible : List Slot) (b : MethodGraph.Block) :
    c.Forwards (c.lowerBlock visible b) :=
  bind (lowerAll _ _) fun _ => bind (exits b) fun _ => pure _

theorem lowerEntry : c.Forwards c.lowerEntry := by
  refine bind (mapM fun v => ?_) fun _ => ?_
  · exact bind (declare 0 v) fun _ => bind (lookup _) fun _ => pure _
  · split
    · exact bind (error trivial) fun _ => pure _
    · exact pure _

theorem lowerBlocks {g : MethodGraph} (cuts : List (Nat × List Nat)) {order : List Nat}
    (horder : ∀ n ∈ order, n < g.blocks.length) (written : List (List Block)) :
    c.Forwards (c.lowerBlocks g cuts order written) := by
  induction order generalizing written with
  | nil => exact ok written
  | cons n order ih =>
      rw [List.forall_mem_cons] at horder
      rw [Lowering.lowerBlocks, List.getElem?_eq_getElem horder.1]
      exact bind (lowerBlock _ _) fun _ => ih horder.2 _

end Forwards

end Lowering

/-! ## the frame -/

namespace MethodGraph

variable {g : MethodGraph}

/-- The order lists the blocks that can be reached from the first one. -/
theorem mem_order_iff (h : g.defect? = none) {n : Nat} :
    n ∈ g.order ↔ g.digraph.Reaches 0 n := by
  rw [order_eq_reversePostOrder (size_pos_of_valid h)]
  exact Digraph.mem_reversePostOrder_iff g.bounded_digraph (size_pos_of_valid h)

theorem lt_length_of_reaches (h : g.defect? = none) {n : Nat} (hn : g.digraph.Reaches 0 n) :
    n < g.blocks.length := by
  cases hn with
  | refl => exact size_pos_of_valid h
  | tail _ hedge => exact g.bounded_digraph _ _ hedge

end MethodGraph

namespace Form

/-- Encoded blocks make a form: none of their edges leads to no block. -/
theorem ofGraph_of_lowerBlocks {lookup : SentenceLookup} {g : MethodGraph}
    (hvalid : g.defect? = none) {entry : Block} {parameters : List Parameter}
    (hentry : (Lowering.mk g.method lookup).lowerEntry = .ok (entry, parameters))
    {written : List (List Block)}
    (hw : (Lowering.mk g.method lookup).lowerBlocks g (g.digraph.cuts 0) g.order [[entry]] =
      .ok written) :
    Form.ofGraph lookup g = .ok
      { method := g.method
        blocks := withPredecessors (written.flatMap Lowering.latest ++
          [{ id := .regularExit }, { id := .exceptionalExit }])
        parameters
        declared := written.flatten.flatMap Block.declarations
        isStandIn := false } := by
  have hedges := danglingEdge?_eq_none fun b hb e he =>
    Lowering.exists_target hvalid hentry hw hb he
  unfold Form.ofGraph
  simp only [hvalid, bind_eq_ok]
  refine ⟨(entry, parameters), hentry, written, hw, ?_⟩
  simp only [hedges]
  rfl

/-- **The frame does not fail**: no graph lacks a listed block or has an edge to none, so it raises
errors of its own or of a look-up. -/
theorem forwards_ofGraph (lookup : SentenceLookup) (g : MethodGraph) :
    (Lowering.mk g.method lookup).Forwards (Form.ofGraph lookup g) := by
  unfold Form.ofGraph
  cases hdefect : g.defect? with
  | some defect => exact .error trivial
  | none =>
      have horder : ∀ n ∈ g.order, n < g.blocks.length := fun n hn =>
        MethodGraph.lt_length_of_reaches hdefect ((MethodGraph.mem_order_iff hdefect).1 hn)
      refine .bind_of_ok .lowerEntry fun entry hentry => ?_
      refine .bind_of_ok (.lowerBlocks _ horder _) fun written hw => ?_
      have hedges := danglingEdge?_eq_none fun b hb e he =>
        Lowering.exists_target hdefect hentry hw hb he
      simp only [hedges]
      exact .pure _

/-- Errors of frames are about the graph. -/
theorem framed_ofGraph (lookup : SentenceLookup) (g : MethodGraph) :
    ∀ err, Form.ofGraph lookup g = .error err → err.IsFraming → ∃ t, lookup t = .error err :=
  fun err h herr => (forwards_ofGraph lookup g err h).resolve_left herr.not_isOwn

/-! ## look-ups -/

variable {lookup : SentenceLookup} {g : MethodGraph}

/-- If all look-ups are answered, only errors of the graph's own are left. -/
theorem isOwn_of_ofGraph (h : ∀ t, ∃ s, lookup t = .ok s) {err : LoweringError}
    (herr : Form.ofGraph lookup g = .error err) : err.IsOwn := by
  refine (forwards_ofGraph lookup g err herr).resolve_right ?_
  rintro ⟨t, ht⟩
  obtain ⟨s, hs⟩ := h t
  exact absurd (hs.symm.trans ht) (by simp)

/-- **Mentioned types suffice**: if a source answers for the types that a graph mentions, then what
it answers for others, or that it refuses them, makes no difference to how encoding the graph ends,
and it does not end for want of a sentence. -/
theorem mentionedTypes_suffice (h : ∀ t ∈ g.mentionedTypes, ∃ s, lookup t = .ok s) :
    (∀ lookup', (∀ t ∈ g.mentionedTypes, lookup' t = lookup t) →
      Form.ofGraph lookup' g = Form.ofGraph lookup g) ∧
    ∀ cause, Form.ofGraph lookup g ≠ .error (.sentence cause) := by
  refine ⟨fun lookup' hagree => ofGraph_congr hagree, fun cause herr => ?_⟩
  -- a source that answers for other types too, with the sentence of 32-bit integers
  let total : SentenceLookup := fun t => if t ∈ g.mentionedTypes then lookup t else lookup .int32
  have hint : TypeRef.int32 ∈ g.mentionedTypes :=
    MethodGraph.mem_mentionedTypes.2 (Or.inr (Or.inr rfl))
  have htotal : ∀ t, ∃ s, total t = .ok s := by
    intro t
    by_cases ht : t ∈ g.mentionedTypes
    · simpa only [total, if_pos ht] using h t ht
    · simpa only [total, if_neg ht] using h .int32 hint
  have hsame : Form.ofGraph total g = Form.ofGraph lookup g := ofGraph_congr fun t ht => if_pos ht
  exact isOwn_of_ofGraph htotal (hsame.trans herr)

end Form

namespace Sample.Reading

/-- Widens the first element of an array. -/
def method : MethodRef :=
  .static (.named "Sample" "Readings" []) "First" [.array .int32] .float64

/-- The element can fault, and its type is not that of the result. -/
def graph : MethodGraph :=
  { method
    blocks := [
      { index := 0
        instructions := [
          ⟨0, .constant (.int 0), some ⟨.localVar 0, .int32⟩, []⟩,
          ⟨1, .loadElement, some ⟨.stack 0, .int32⟩,
            [⟨.parameter 0, .array .int32⟩, ⟨.localVar 0, .int32⟩]⟩,
          ⟨2, .convert .float64, some ⟨.stack 1, .float64⟩, [⟨.stack 0, .int32⟩]⟩,
          ⟨3, .ret, none, [⟨.stack 1, .float64⟩]⟩]
        successors := [] }] }

/-- Answers for the types that the graph mentions and for no others. -/
def strict : SentenceLookup := fun t =>
  if t ∈ graph.mentionedTypes then (Sentence.encode none .empty t).mapError .sentence
  else .error (.sentence (.unknownType t))

theorem suffices_graph : graph.mentionedTypes = [.array .int32, .int32, .float64] ∧
    (∀ t ∈ graph.mentionedTypes, ∃ s, strict t = .ok s) ∧ (Form.ofGraph strict graph).isOk = true ∧
    ∀ cause, Form.ofGraph strict graph ≠ .error (.sentence cause) := by
  have htypes : graph.mentionedTypes = [.array .int32, .int32, .float64] := by decide
  have hanswers : ∀ t ∈ graph.mentionedTypes, ∃ s, strict t = .ok s := by
    rw [htypes]
    simp only [List.forall_mem_cons, List.not_mem_nil, false_implies, implies_true, and_true]
    exact ⟨⟨_, rfl⟩, ⟨_, rfl⟩, ⟨_, rfl⟩⟩
  exact ⟨htypes, hanswers, by decide +kernel, (Form.mentionedTypes_suffice hanswers).2⟩

end Sample.Reading

end Pathwise
