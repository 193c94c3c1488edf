import Pathwise.Sentence

/-!
# Pathwise.Sentence.Declaration

The commands that introduce sentences to a solver. The preamble comes first: the
sort of runtime types, the relation `subtype` as a preorder, and the datatype
that all arrays share.
-/

namespace Pathwise

namespace Sexp

/-- `(declare-const name sort)` -/
def declareConst (name : String) (sort : Sexp) : Sexp := app "declare-const" [.atom name, sort]

/-- `(assert e)` -/
def assert (e : Sexp) : Sexp := app "assert" [e]

/-- `(subtype a b)` -/
def subtype (a b : Sexp) : Sexp := app "subtype" [a, b]

/-- `(forall ((x Type) …) e)` -/
def forallTypes (names : List String) (e : Sexp) : Sexp :=
  app "forall" [.list (names.map fun x => .list [.atom x, typeSort]), e]

/-- `(declare-datatypes (parameter …) (body …))` -/
def declareDatatypes (parameters : List String) (bodies : List Sexp) : Sexp :=
  app "declare-datatypes" [.list (parameters.map .atom), .list bodies]

end Sexp

/-- Declarations that every problem starts with. -/
def preamble : List Sexp :=
  let a := Sexp.atom "a"
  let b := Sexp.atom "b"
  let c := Sexp.atom "c"
  let t := Sexp.atom "t"
  let array : Constructor :=
    { name := SeqArray.ctor
      accessors := [⟨SeqArray.pointer, .atom "Int"⟩, ⟨SeqArray.type, typeSort⟩,
        ⟨SeqArray.contents, .app "Seq" [.atom "E"]⟩] }
  [ .app "declare-sort" [typeSort, .nat 0],
    .app "declare-fun" [.atom "subtype", .list [typeSort, typeSort], .atom "Bool"],
    .assert (.forallTypes ["t"] (.subtype t t)),
    .assert (.forallTypes ["a", "b", "c"]
      (.app "=>" [.and (.subtype a b) (.subtype b c), .subtype a c])),
    .declareDatatypes ["E"] [.app "SeqArray" [.atom SeqArray.null, array.sexp]] ]

namespace Sentence

/-- `(name null constructor)` for a type with its own datatype. -/
def datatypeBody? (s : Sentence) : Option Sexp := do
  let null ← s.nullConstructor?
  let ctor ← s.constructor?
  return .app s.name [null.sexp, ctor.sexp]

/-- The command that introduces the sort of the type. Scalars need none. -/
def datatypeDeclaration? (s : Sentence) : Option Sexp :=
  match s.shape with
  | .array element => some (.app "define-sort" [.atom s.name, .list [], SeqArray.sort element.sort])
  | _ => s.datatypeBody?.map fun body => .declareDatatypes [] [body]

/-- The tag of a reference type, and that it is a subtype of its base. -/
def tagDeclarations (s : Sentence) : List Sexp :=
  if s.isReference then
    .declareConst s.tag typeSort ::
      (s.base.map fun b => .assert (.subtype (.atom s.tag) (.atom b.tag))).toList
  else []

/-- All commands of one sentence. -/
def declarations (s : Sentence) : List Sexp := s.datatypeDeclaration?.toList ++ s.tagDeclarations

end Sentence

end Pathwise
