import Pathwise.Text.Blank
import Pathwise.TypeRef

/-!
# Pathwise.TypeRef.Parser

Reading type references. Blanks around a reference, an element or a generic
argument do not matter. The rules, first match first:

1. `e[]` is an array of `e`;
2. the name of a builtin type is that type;
3. `path<a,b,…>` is a named type with arguments, separated by the commas outside
   all inner angle brackets;
4. anything else is a named type without arguments.

The path of a named type is divided at its last dot into namespace and name. It
holds neither blank nor `>`, and its name is not empty.
-/

namespace Pathwise.TypeRef

open Text

/-- A text, trimmed, that is no type reference. -/
structure ParseError where
  text : String
deriving DecidableEq

/-- Which text is no type. -/
def ParseError.message (e : ParseError) : String :=
  "cannot parse type reference '" ++ e.text ++ "'"

/-- Cut at the commas that no angle bracket encloses; `depth` brackets are open. -/
def splitArguments (depth : Nat) : List Char → List (List Char)
  | [] => [[]]
  | c :: cs =>
    if c = ',' ∧ depth = 0 then [] :: splitArguments 0 cs
    else
      let depth := if c = '<' then depth + 1 else if c = '>' then depth - 1 else depth
      match splitArguments depth cs with
      | [] => [[c]]
      | part :: parts => (c :: part) :: parts

/-- A named type from its path; `whole` is the text an error shows. -/
def ofPath (whole path : List Char) (arguments : List TypeRef) : Except ParseError TypeRef :=
  if path = [] ∨ path.any (fun c => c == '>' || isBlank c) then
    .error ⟨String.ofList whole⟩
  else
    match cutLast? '.' path with
    | none => .ok (.named "" (String.ofList path) arguments)
    | some (_, []) => .error ⟨String.ofList whole⟩
    | some (space, name) => .ok (.named (String.ofList space) (String.ofList name) arguments)

/-- Read a reference whose nesting is less than `fuel`. -/
def parseChars : (fuel : Nat) → List Char → Except ParseError TypeRef
  | 0, cs => .error ⟨String.ofList (trim cs)⟩
  | fuel + 1, cs =>
    let s := trim cs
    if s = [] then .error ⟨""⟩
    else
      match dropEnd? ['[', ']'] s with
      | some element => do return .array (← parseChars fuel element)
      | none =>
        match Builtin.ofName? (String.ofList s) with
        | some b => .ok (.builtin b)
        | none =>
          match cutFirst? '<' s with
          | none => ofPath s s []
          | some (path, rest) =>
            match dropEnd? ['>'] rest with
            | none => .error ⟨String.ofList s⟩
            | some inner => do
              let arguments ← (splitArguments 0 inner).mapM (parseChars fuel)
              ofPath s path arguments

/-- Read a type reference. Every nested reference is shorter than the text around it, so its
length bounds the nesting. -/
def parse (text : String) : Except ParseError TypeRef :=
  parseChars (text.length + 1) text.toList

end Pathwise.TypeRef
