import Mathlib.Logic.Function.Iterate
import Pathwise.Proofs.Failure
import Pathwise.Proofs.Segmentation.Block
import Pathwise.Resolution.Handler

/-!
# Pathwise.Proofs.Segmentation.Repetition

A block that repeats an instruction that can fault. Each time the same happens to
the segments (`Lowering.lowerAll_replicate`), so blocks of any length can be encoded
by hand.

In `Sample.Reread` the length of an array is read 65536 times, which is one segment
more than there are numbers. The last segment takes the place of the first one
(`Sample.Reread.head?_latest`), and with it goes the declaration of the slot that is
read into.
-/

namespace Pathwise

open MethodGraph (Instruction)

namespace Lowering

variable {c : Lowering} {i : Instruction}

/-- Visible slots are not declared again. -/
theorem declareAll_of_visible (offset : Nat) {vs : List Variable} {s : Segments}
    (h : ∀ v ∈ vs, v.slot ∈ s.visible) : c.declareAll offset vs s = .ok s := by
  induction vs with
  | nil => rfl
  | cons v vs ih =>
      rw [List.forall_mem_cons] at h
      rw [declareAll, if_pos h.1, ih h.2]

/-- What an instruction that can fault does to the segments, once its slots are declared. -/
def Segments.pass (s : Segments) (groups : List (FaultGroup × Statement))
    (semantics : List Statement) : Segments :=
  (s.split groups).assert semantics

section

variable {groups : List (FaultGroup × Statement)} {semantics : List Statement}

/-- An instruction that is repeated does the same each time. -/
theorem lowerAll_replicate (hl : c.lower i = .ok (.faulting groups semantics)) (n : Nat)
    (rest : List Instruction) {s : Segments} (h : ∀ v ∈ i.variables, v.slot ∈ s.visible) :
    c.lowerAll (List.replicate n i ++ rest) s =
      c.lowerAll rest ((Segments.pass · groups semantics)^[n] s) := by
  induction n generalizing s with
  | zero => rfl
  | succ n ih =>
      rw [List.replicate_succ, List.cons_append, lowerAll, declareAll_of_visible _ h, hl,
        Function.iterate_succ_apply]
      exact ih h

/-- Nothing new is declared. -/
theorem Segments.declarations_iterate_pass (s : Segments) (n : Nat) :
    ((Segments.pass · groups semantics)^[n] s).blocks.flatMap Block.declarations =
      s.blocks.flatMap Block.declarations := by
  induction n with
  | zero => rfl
  | succ n ih =>
      rw [Function.iterate_succ_apply', ← ih]
      simp [pass, split, assert, blocks]

end

end Lowering

namespace Sample.Reread

open Lowering (Segments)

/-- A method that reads a length again and again. -/
def method : MethodRef := .static (.named "Sample" "Arrays" []) "Reread" [.array .int32] .void

def array : Variable := ⟨.parameter 0, .array .int32⟩
def length : Variable := ⟨.stack 0, .int32⟩

/-- Reads the length of the array. -/
def read : Instruction := ⟨0, .arrayLength, some length, [array]⟩

/-- Reads the length of the array again and again, once more than `n` times. -/
def source (n : Nat) : MethodGraph.Block :=
  { index := 0
    instructions := List.replicate (n + 1) read ++ [⟨1, .ret, none, []⟩]
    successors := [] }

/-- Its graph, of one block. -/
def graph (n : Nat) : MethodGraph := { method, blocks := [source n] }

/-- Sentences without any types of a program. -/
def lookup : SentenceLookup := Program.empty.lookup none

/-- The encoder of the method. -/
def lowering : Lowering := { method, lookup }

/-- The fault groups of a reading. -/
def groups : List (FaultGroup × Statement) :=
  match lowering.lower read with
  | .ok (.faulting groups _) => groups
  | _ => []

/-- What holds after a reading. -/
def semantics : List Statement :=
  match lowering.lower read with
  | .ok (.faulting _ semantics) => semantics
  | _ => []

theorem lower_read : lowering.lower read = .ok (.faulting groups semantics) := by rfl

/-- Each read can fault. -/
theorem faultCount_source (n : Nat) : lowering.faultCount (source n) = n + 1 := by
  have hread : lowering.faults read = true := by decide
  have hret : lowering.faults ⟨1, .ret, none, []⟩ = false := by decide
  simp [Lowering.faultCount, source, List.countP_replicate, hread, hret]

/-- The block under encoding when the first reading has declared its slot. -/
def start : Segments :=
  { complete := #[]
    current := { id := .node 0
                 declarations := [(Statement.declaration 0 length.slot length.type
                   (lowering.symbol length) (.atom "Int")).link (.node 0)] }
    visible := [array.slot, length.slot] }

/-- The block under encoding after some readings. -/
def reading (n : Nat) : Segments := (Segments.pass · groups semantics)^[n] start

theorem id_reading (n : Nat) : (reading n).current.id = ⟨.node 0, n % 65536⟩ := by
  induction n with
  | zero => rfl
  | succ n ih =>
      rw [reading, Function.iterate_succ_apply']
      change (reading n).current.id.next = _
      rw [ih, BlockId.next, Nat.mod_add_mod]

theorem current_reading (n : Nat) : (reading (n + 1)).current =
    { id := ⟨.node 0, (n + 1) % 65536⟩
      assertions := semantics.map (·.link ⟨.node 0, (n + 1) % 65536⟩) } := by
  rw [← id_reading, reading, Function.iterate_succ_apply']
  rfl

/-- The last segment. -/
def last (n : Nat) : Block :=
  { id := ⟨.node 0, (n + 1) % 65536⟩
    assertions := (semantics ++ [(Statement.assertion 1 []).withEffect (.ret none)]).map
      (·.link ⟨.node 0, (n + 1) % 65536⟩)
    successors := [⟨.always, .regularExit⟩] }

/-- What it holds if it takes the number of the first one. -/
def statements : List Placed :=
  (semantics ++ [(Statement.assertion 1 []).withEffect (.ret none)]).map (·.link (.node 0))

/-- The segments of the block. -/
def segments (n : Nat) : List Block := (reading (n + 1)).complete.toList ++ [last n]

/-- What the reads become. -/
theorem lowerAll_source (n : Nat) (rest : List Instruction) :
    lowering.lowerAll (List.replicate (n + 1) read ++ rest)
      { complete := #[], current := { id := .node 0 }, visible := [array.slot] } =
    lowering.lowerAll rest (reading (n + 1)) := by
  have hvisible : ∀ v ∈ read.variables, v.slot ∈ start.visible := by decide
  rw [reading, ← Lowering.lowerAll_replicate lower_read _ _ hvisible]
  rfl

/-- What the block becomes. -/
theorem lowerBlock_source (n : Nat) :
    lowering.lowerBlock [array.slot] (source n) = .ok (segments n) := by
  have hexits : lowering.exits (source n) = .ok [⟨.always, .regularExit⟩] := by
    have hlast : (source n).terminator? = some ⟨1, .ret, none, []⟩ := List.getLast?_concat
    rw [Lowering.exits, hlast]
    rfl
  simp only [Lowering.lowerBlock, bind_eq_ok]
  refine ⟨_, lowerAll_source n _, _, hexits, ?_⟩
  simp [Segments.assert, segments, last, current_reading]

/-- Only the first segment declares anything. -/
theorem declarations_segments (n : Nat) :
    (segments n).flatMap Block.declarations = start.current.declarations := by
  have hall : (reading (n + 1)).blocks.flatMap Block.declarations = start.current.declarations :=
    Segments.declarations_iterate_pass start (n + 1)
  simpa [segments, last, Segments.blocks, current_reading] using hall

/-- The entry, which declares the array. -/
def entry : Block :=
  { id := .entry
    declarations := [(Statement.declaration 0 array.slot array.type (lowering.symbol array)
      (.atom "Int_Array")).link .entry]
    successors := [⟨.always, .node 0⟩] }

/-- What the graph becomes. -/
theorem lowerBlocks_graph (n : Nat) :
    lowering.lowerBlocks (graph n) ((graph n).digraph.cuts 0) (graph n).order [[entry]] =
      .ok [[entry], segments n] := by
  have horder : (graph n).order = [0] := rfl
  have hchain : Digraph.chainOf ((graph n).digraph.cuts 0) 0 = [] := rfl
  have hvisible : Lowering.visibleSlots [[entry]].flatten [] = [array.slot] := by decide
  have hsource : (graph n).blocks[0]? = some (source n) := rfl
  rw [horder, Lowering.lowerBlocks, hsource]
  simp only [hchain, hvisible, lowerBlock_source]
  rfl

/-- The blocks that are kept. -/
def blocks (n : Nat) : List Block :=
  entry :: Lowering.latest (segments n) ++ [{ id := .regularExit }, { id := .exceptionalExit }]

/-- The form of the graph. -/
def form (n : Nat) : Form :=
  { method
    blocks := Form.withPredecessors (blocks n)
    parameters := [{ symbol := lowering.symbol array, sort := .atom "Int_Array" }]
    declared := entry.declarations ++ start.current.declarations
    isStandIn := false }

theorem form_eq (n : Nat) : Form.ofGraph lookup (graph n) = .ok (form n) := by
  have hentry : lowering.lowerEntry = .ok (entry, (form n).parameters) := rfl
  have hblocks : [[entry], segments n].flatMap Lowering.latest ++
      [{ id := .regularExit }, { id := .exceptionalExit }] = blocks n := by
    rw [List.flatMap_cons, List.flatMap_singleton, Lowering.latest_singleton,
      List.singleton_append, blocks]
  have hdeclared : [[entry], segments n].flatten.flatMap Block.declarations =
      (form n).declared := by
    rw [form, List.flatten_cons, List.flatten_singleton, List.flatMap_append,
      declarations_segments, List.flatMap_singleton]
  rw [Form.ofGraph_of_lowerBlocks (g := graph n) rfl hentry (lowerBlocks_graph n), hblocks,
    hdeclared]
  rfl

/-- The entry is found. -/
theorem block?_entry (n : Nat) : ∃ predecessors,
    (form n).block? .entry = some { entry with predecessors } := by
  rw [Form.block?, form, blocks, List.cons_append, Form.withPredecessors]
  simp only [List.map_cons]
  rw [List.find?_cons_of_pos rfl]
  exact ⟨_, rfl⟩

/-! ## one segment too many -/

variable {n : Nat} (hn : n + 1 = 65536)

include hn

/-- The last segment is kept in the place of the first one. -/
theorem head?_latest : (Lowering.latest (segments n)).head? = some (last n) := by
  have hlength : (segments n).length = n + 2 := by
    rw [Lowering.length_lowerBlock (lowerBlock_source n), faultCount_source]
  have hsize : (reading (n + 1)).complete.toList.length = n + 1 := by
    rw [segments, List.length_append, List.length_singleton] at hlength
    omega
  have hlast : (segments n)[n + 1]? = some (last n) := by
    rw [segments, List.getElem?_append_right hsize.le, hsize, Nat.sub_self]
    rfl
  have hkept : (Lowering.latest (segments n))[(n + 1) % 65536]? = (segments n)[n + 1]? :=
    Lowering.getElem?_latest (by omega) (by omega)
  rw [hn, Nat.mod_self, ← hn, hlast] at hkept
  rw [List.head?_eq_getElem?, hkept]

/-- The block is the last segment. -/
theorem block?_node : ∃ predecessors, (form n).block? (.node 0) = some
    { id := .node 0
      predecessors
      assertions := statements
      successors := [⟨.always, .regularExit⟩] } := by
  have hlast : last n = { id := .node 0, assertions := statements
                          successors := [⟨.always, .regularExit⟩] } := by
    rw [last, hn]
    rfl
  obtain ⟨rest, hrest⟩ := List.head?_eq_some_iff.1 (head?_latest hn)
  have hblocks : blocks n = entry :: last n ::
      (rest ++ [{ id := .regularExit }, { id := .exceptionalExit }]) := by
    rw [blocks, hrest, List.cons_append, List.cons_append]
  rw [Form.block?, form, hblocks, hlast, Form.withPredecessors]
  simp only [List.map_cons]
  rw [List.find?_cons_of_neg (by simp [entry, BlockId.entry, BlockId.node]),
    List.find?_cons_of_pos rfl]
  exact ⟨_, rfl⟩

/-- No segment is left that declares the slot. -/
theorem notMem_declaredSlots_segment {b : Block} (hb : b ∈ Lowering.latest (segments n)) :
    length.slot ∉ b.declaredSlots := by
  have hfirst : lowering.segmentOf (source n).instructions 0 = 0 := rfl
  refine Lowering.notMem_declaredSlots_latest (lowerBlock_source n) (by decide) (k := 0)
    (i := read) rfl ?_ (by decide) (by decide) b hb
  rw [faultCount_source, hfirst]
  omega

/-- No block is left that declares the slot. -/
theorem notMem_declaredSlots {b : Block} (hb : b ∈ (form n).blocks) :
    length.slot ∉ b.declaredSlots := by
  obtain ⟨bare, hbare, predecessors, rfl⟩ := Form.exists_of_mem_withPredecessors hb
  change length.slot ∉ bare.declaredSlots
  rcases List.mem_append.1 hbare with hbare | hbare
  · cases List.mem_cons.1 hbare with
    | inl heq =>
        rw [heq]
        decide
    | inr hbare => exact notMem_declaredSlots_segment hn hbare
  · simp only [List.mem_cons, List.not_mem_nil, or_false] at hbare
    rcases hbare with rfl | rfl <;> decide

end Sample.Reread

end Pathwise
