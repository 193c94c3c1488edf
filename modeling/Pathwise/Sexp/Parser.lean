import Pathwise.Sexp
import Pathwise.Text.Blank

/-!
# Pathwise.Sexp.Parser

Reading s-expressions. Blanks divide items and otherwise do not matter; an atom
ends before a blank, a parenthesis or a quote; inside a string literal two quotes
stand for one. A text holds exactly one expression.
-/

namespace Pathwise.Sexp

open Text

/-- Why a text is no expression. -/
inductive ParseError where
  | endOfInput
  | unclosedList
  | strayClose
  | unterminatedString
  /-- Something stands behind the expression. -/
  | trailing (text : String)
deriving DecidableEq

/-- Why a text is no term. -/
def ParseError.message : ParseError → String
  | .endOfInput => "unexpected end of input"
  | .unclosedList => "unclosed list"
  | .strayClose => "unexpected ')'"
  | .unterminatedString => "unterminated string"
  | .trailing text => "trailing input in '" ++ text ++ "'"

/-- The characters an atom can hold. -/
def isAtomChar (c : Char) : Bool := !isBlank c && c != '(' && c != ')' && c != '"'

/-- Drop the blanks in front. -/
def skipBlanks (cs : List Char) : List Char := cs.dropWhile isBlank

/-- The rest of a string literal behind its opening quote, and what follows it. -/
def readQuoted : List Char → Option (List Char × List Char)
  | [] => none
  | '"' :: '"' :: cs => (readQuoted cs).map fun (text, rest) => ('"' :: text, rest)
  | c :: cs =>
    if c = '"' then some ([], cs)
    else (readQuoted cs).map fun (text, rest) => (c :: text, rest)

mutual

/-- Read one expression and return what follows it. -/
def read : (fuel : Nat) → List Char → Except ParseError (Sexp × List Char)
  | 0, _ => .error .endOfInput
  | fuel + 1, cs =>
    match skipBlanks cs with
    | [] => .error .endOfInput
    | '(' :: rest => do
      let (items, rest) ← readItems fuel rest
      return (.list items, rest)
    | ')' :: _ => .error .strayClose
    | '"' :: rest =>
      match readQuoted rest with
      | none => .error .unterminatedString
      | some (text, rest) => .ok (.quoted (String.ofList text), rest)
    | c :: rest =>
      let cs := c :: rest
      .ok (.atom (String.ofList (cs.takeWhile isAtomChar)), cs.dropWhile isAtomChar)

/-- Read the items of a list up to its closing parenthesis. -/
def readItems : (fuel : Nat) → List Char → Except ParseError (List Sexp × List Char)
  | 0, _ => .error .unclosedList
  | fuel + 1, cs =>
    match skipBlanks cs with
    | [] => .error .unclosedList
    | ')' :: rest => .ok ([], rest)
    | cs => do
      let (item, rest) ← read fuel cs
      let (items, rest) ← readItems fuel rest
      return (item :: items, rest)

end

/-- Read a text that holds one expression. An expression and each of the items around it begin at
a character of their own, so twice the length bounds the nesting. -/
def parse (text : String) : Except ParseError Sexp := do
  let (e, rest) ← read (2 * text.length + 1) text.toList
  if skipBlanks rest = [] then return e else .error (.trailing text)

end Pathwise.Sexp
