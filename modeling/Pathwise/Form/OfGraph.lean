import Pathwise.Form
import Pathwise.Form.Lowering
import Std.Data.TreeMap
import Std.Data.TreeSet

/-!
# Pathwise.Form.OfGraph

The form of a method graph. Blocks are encoded in reverse post-order, so that all
dominators of a block come before it: a constant that a dominator declares need
not be declared again. Within a block each instruction first declares the slots
it touches that are not yet visible, then adds its statements; an instruction
that can fault ends the current segment.
-/

namespace Pathwise

namespace MethodGraph

/-- Types that the instruction itself names, beyond those of its variables. -/
def Instruction.namedTypes (i : Instruction) : List TypeRef :=
  match i.opcode with
  | .convert type | .isInstance type => [type]
  | .newObject constructor => [constructor.declaring]
  | .newArray element => [element, .array element]
  | .call method true => if method.isAbstract then [method.declaring] else []
  | _ => []

/-- The variables of an instruction, the target last. -/
def Instruction.variables (i : Instruction) : List Variable := i.operands ++ i.target.toList

/-- All types whose sentences the form of a graph needs. -/
def mentionedTypes (g : MethodGraph) : List TypeRef :=
  let used := g.blocks.flatMap fun b => b.instructions.flatMap fun i =>
    i.variables.map (·.type) ++ i.namedTypes
  (g.method.parameterSlots ++ used ++ [TypeRef.int32]).eraseDups

end MethodGraph

namespace Lowering

open MethodGraph (Instruction)

/-- The declaration of a variable's constant. -/
def declare (c : Lowering) (offset : Nat) (v : Variable) : Except LoweringError Statement := do
  let s ← c.lookup v.type
  return .declaration offset v.slot v.type (c.symbol v) (.atom s.name)

/-- A block of the graph under encoding: its complete segments, the current one, and the slots
that are visible in it. -/
structure Segments where
  complete : Array Block
  current : Block
  visible : List Slot

namespace Segments

/-- Add statements to the current segment. -/
def assert (s : Segments) (statements : List Statement) : Segments :=
  { s with current := { s.current with
      assertions := s.current.assertions ++ statements.map (·.link s.current.id) } }

/-- Complete the current segment with the guards of its fault groups and go on to the next one,
which the group without a fault leads to. -/
def split (s : Segments) (groups : List (FaultGroup × Statement)) : Segments :=
  let next := s.current.id.next
  let guards := groups.map fun (g, guard) => (guard.inGroup g.ordinal).link s.current.id
  let edges := groups.map fun (g, _) =>
    (⟨.fault g, if g.fault.isNone then next else .exceptionalExit⟩ : Edge)
  { complete := s.complete.push { s.current with
      faultGuards := s.current.faultGuards ++ guards
      successors := s.current.successors ++ edges }
    current := { id := next }
    visible := s.visible }

/-- Add the two sides of a branch. -/
def branch (s : Segments) (taken notTaken : Statement) : Segments :=
  { s with current := { s.current with
      branchConditions := s.current.branchConditions ++
        [taken.link s.current.id, notTaken.link s.current.id] } }

end Segments

/-- Declare the variables that are not visible yet. -/
def declareAll (c : Lowering) (offset : Nat) :
    List Variable → Segments → Except LoweringError Segments
  | [], s => .ok s
  | v :: vs, s =>
    if v.slot ∈ s.visible then c.declareAll offset vs s
    else do
      let d ← c.declare offset v
      c.declareAll offset vs
        { s with
          current := { s.current with
            declarations := s.current.declarations ++ [d.link s.current.id] }
          visible := s.visible ++ [v.slot] }

/-- Encode the instructions of a block in order. A branch ends its block. -/
def lowerAll (c : Lowering) : List Instruction → Segments → Except LoweringError Segments
  | [], s => .ok s
  | i :: rest, s => do
    let s ← c.declareAll i.offset i.variables s
    match ← c.lower i with
    | .plain statements => c.lowerAll rest (s.assert statements)
    | .faulting groups semantics => c.lowerAll rest ((s.split groups).assert semantics)
    | .branch taken notTaken =>
      if rest.isEmpty then c.lowerAll rest (s.branch taken notTaken)
      else throw (.branchInside c.method i.offset)

/-- The edges behind the last instruction of a block. -/
def exits (c : Lowering) (b : MethodGraph.Block) : Except LoweringError (List Edge) :=
  match b.terminator?.map Instruction.opcode with
  | some (.branch _) =>
    match b.successors with
    | [taken, other] => .ok [⟨.taken, .node taken⟩, ⟨.notTaken, .node other⟩]
    | _ => .error (.conditionalSuccessors c.method b.index)
  | some .ret => .ok [⟨.always, .regularExit⟩]
  | some .throw => .ok [⟨.always, .exceptionalExit⟩]
  | _ =>
    match b.successors with
    | [] => .ok [⟨.always, .regularExit⟩]
    | [next] => .ok [⟨.always, .node next⟩]
    | _ => .error (.severalSuccessors c.method b.index)

/-- The segments of a block of the graph, given the slots that are visible at its start. -/
def lowerBlock (c : Lowering) (visible : List Slot) (b : MethodGraph.Block) :
    Except LoweringError (List Block) := do
  let s ← c.lowerAll b.instructions
    { complete := #[], current := { id := .node b.index }, visible }
  let edges ← c.exits b
  return s.complete.toList ++ [{ s.current with successors := s.current.successors ++ edges }]

/-- The segments of a block that are kept. A segment replaces an earlier one with its number, and
the numbers repeat after 65536 segments, so these are the last ones, in the order of their
numbers. -/
def latest (segments : List Block) : List Block :=
  let replaced := segments.length - 65536
  (segments.drop replaced).rotateRight replaced

/-- The variables of the parameter slots. -/
def parameterVariables (m : MethodRef) : List Variable :=
  m.parameterSlots.zipIdx.map fun (type, index) => ⟨.parameter index, type⟩

/-- The entry block, which declares the parameters, and the parameters themselves. Parameters are
numbered with sixteen bits. -/
def lowerEntry (c : Lowering) : Except LoweringError (Block × List Form.Parameter) := do
  let declared ← ((parameterVariables c.method).take 65536).mapM fun v => do
    let d ← c.declare 0 v
    let s ← c.lookup v.type
    return (d.link .entry, ({ symbol := c.symbol v, sort := .atom s.name } : Form.Parameter))
  if 65536 < c.method.parameterSlots.length then
    throw (.tooManyParameters c.method)
  return ({ id := .entry
            declarations := declared.map (·.1)
            successors := [⟨.always, .node 0⟩] },
    declared.map (·.2))

/-- Slots visible where a block starts: those declared in the entry and in its dominators. -/
def visibleSlots (blocks : List Block) (dominators : List Nat) : List Slot :=
  (blocks.filter fun b =>
    match b.id.index with
    | .entry => true
    | .node n => n ∈ dominators
    | _ => false).flatMap Block.declaredSlots

/-- Encode the blocks of a graph one after the other, behind those already encoded. The segments of
a block stay together. -/
def lowerBlocks (c : Lowering) (g : MethodGraph) (cuts : List (Nat × List Nat)) :
    (order : List Nat) → List (List Block) → Except LoweringError (List (List Block))
  | [], written => .ok written
  | n :: order, written =>
    match g.blocks[n]? with
    | none => .error (.missingBlock n)
    | some b => do
      let segments ← c.lowerBlock (visibleSlots written.flatten (Digraph.chainOf cuts n)) b
      c.lowerBlocks g cuts order (written ++ [segments])

end Lowering

/-- For every id the blocks with an edge to it, the last one first. -/
def Form.sources (blocks : List Block) : Std.TreeMap BlockId (List BlockId) :=
  blocks.foldl (fun sources b =>
    (b.successors.map (·.target)).eraseDups.foldl (fun sources id =>
      sources.alter id fun ids => some (b.id :: ids.getD [])) sources) ∅

/-- Note the predecessors of every block: the blocks with an edge to it, each once. -/
def Form.withPredecessors (blocks : List Block) : List Block :=
  let sources := Form.sources blocks
  blocks.map fun b => { b with predecessors := (sources.getD b.id []).reverse }

/-- The first edge that leads to no block: the block it leaves, and where it leads. -/
def Form.danglingEdge? (blocks : List Block) : Option (BlockId × BlockId) :=
  let ids := Std.TreeSet.ofList (blocks.map (·.id)) compare
  blocks.findSome? fun b =>
    (b.successors.find? fun e => !ids.contains e.target).map fun e => (b.id, e.target)

/-- The form of a graph, with sentences from `lookup`. -/
def Form.ofGraph (lookup : SentenceLookup) (g : MethodGraph) : Except LoweringError Form := do
  if let some defect := g.defect? then
    throw (.malformedGraph g.method defect)
  let c : Lowering := { method := g.method, lookup }
  let (entry, parameters) ← c.lowerEntry
  let written ← c.lowerBlocks g (g.digraph.cuts 0) g.order [[entry]]
  let exits : List Block := [{ id := .regularExit }, { id := .exceptionalExit }]
  let blocks := written.flatMap Lowering.latest ++ exits
  if let some (source, target) := Form.danglingEdge? blocks then
    throw (.danglingEdge source target)
  return { method := g.method
           blocks := Form.withPredecessors blocks
           parameters
           declared := written.flatten.flatMap Block.declarations
           isStandIn := false }

end Pathwise
