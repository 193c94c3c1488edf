import Pathwise.Form.Lowering
import Pathwise.Form
import Pathwise.Sentence.Declaration

/-!
# Pathwise.Resolution.Repository

Collections of finished sentences and forms. What is stored first for a type or a
method stays.

The declarations of all stored sentences come in an order in which a solver can
read them: a sentence after those it refers to, and sentences that refer to each
other in one joint declaration.
-/

namespace Pathwise

/-- Sentences by type. -/
structure TypeRepository where
  sentences : Table TypeRef Sentence
deriving DecidableEq, Inhabited

namespace TypeRepository

/-- No sentences. -/
def empty : TypeRepository := ⟨∅⟩

/-- The sentence of a type. -/
def find? (r : TypeRepository) (t : TypeRef) : Option Sentence := r.sentences.find? t

/-- Whether a type has a sentence. -/
def contains (r : TypeRepository) (t : TypeRef) : Bool := r.sentences.contains t

/-- Store a sentence under its own type, unless that has one. -/
def insert (r : TypeRepository) (s : Sentence) : TypeRepository :=
  ⟨r.sentences.insertNew s.type s⟩

/-- The number of sentences. -/
def size (r : TypeRepository) : Nat := r.sentences.size

/-- Look a sentence up for an encoding; a type without one is unknown. -/
def lookup (r : TypeRepository) : SentenceLookup := fun t =>
  match r.find? t with
  | some s => .ok s
  | none => .error (.sentence (.unknownType t))

/-! ## Declarations -/

/-- The stored sentences in the order of their types. -/
def sorted (r : TypeRepository) : List Sentence :=
  r.sentences.values.mergeSort fun a b => (compare a.type b.type).isLE

/-- Types that a sentence has to come after: those it refers to, and its base. -/
def precursors (s : Sentence) : List TypeRef := s.references ++ s.base.toList

/-- Positions of the sentences, with an edge from each to those that come after it. -/
def digraph (sentences : List Sentence) : Digraph :=
  { size := sentences.length
    edges := sentences.zipIdx.flatMap fun (s, i) =>
      (precursors s).filterMap fun t =>
        let j := sentences.findIdx (·.type = t)
        if j < sentences.length ∧ j ≠ i then some (j, i) else none }

/-- Declarations of sentences that belong together: first their datatypes in one command, then
all tags, then how the tags are ordered. -/
def jointDeclarations : List Sentence → List Sexp
  | [s] => s.declarations
  | group =>
    .declareDatatypes [] (group.filterMap (·.datatypeBody?)) ::
      (group.filterMap (·.tagDeclarations.head?) ++ group.flatMap (·.tagDeclarations.tail))

/-- The preamble, then the declarations of all stored sentences. -/
def declarations (r : TypeRepository) : List Sexp :=
  let sentences := r.sorted
  preamble ++ (digraph sentences).orderedComponents.flatMap fun component =>
    jointDeclarations (component.filterMap (sentences[·]?))

end TypeRepository

/-- Forms by method. -/
structure FormRepository where
  forms : Table MethodRef Form
deriving DecidableEq, Inhabited

namespace FormRepository

/-- No forms. -/
def empty : FormRepository := ⟨∅⟩

/-- The form of a method. -/
def find? (r : FormRepository) (m : MethodRef) : Option Form := r.forms.find? m

/-- Whether a method has a form. -/
def contains (r : FormRepository) (m : MethodRef) : Bool := r.forms.contains m

/-- Store a form for a method, unless that has one. -/
def insert (r : FormRepository) (m : MethodRef) (f : Form) : FormRepository :=
  ⟨r.forms.insertNew m f⟩

/-- The number of forms. -/
def size (r : FormRepository) : Nat := r.forms.size

end FormRepository

end Pathwise
