import Pathwise.Number.Integer
import Pathwise.Options
import Pathwise.TypeRef.Parser

/-!
# Pathwise.Options.Toml

Options written as a TOML document. The settings are strings, integers, truth
values and arrays of strings under five keys, so only that part of the format can
make up a valid document: a table, a dotted key, a date, a fraction or a nested
array is never a setting, whether it is well-formed or not.
-/

namespace Pathwise.Options.Toml

/-- A value that a setting can have. -/
inductive Setting where
  | text (value : String)
  | number (value : Int)
  | flag (value : Bool)
  | texts (values : List String)

/-! ## Characters -/

/-- Blanks within a line. -/
def isSpace (c : Char) : Bool := c = ' ' || c = '\t'

/-- Characters that comments and strings can hold: no control characters but the tab. -/
def isPlain (c : Char) : Bool := c = '\t' || (0x20 ≤ c.toNat && c.toNat != 0x7F)

/-- Characters of keys without quotes. -/
def isBareKeyChar (c : Char) : Bool := c.isAlphanum || c = '_' || c = '-'

/-- The quote of literal strings. -/
def apostrophe : Char := '\x27'

/-- Drop the blanks in front. -/
def skipSpaces (cs : List Char) : List Char := cs.dropWhile isSpace

/-- The rest behind a line break. -/
def newline? : List Char → Option (List Char)
  | '\n' :: rest => some rest
  | '\r' :: '\n' :: rest => some rest
  | _ => none

/-- The rest behind a comment; anything else stays. -/
def skipComment : List Char → List Char
  | '#' :: rest => rest.dropWhile isPlain
  | cs => cs

/-- The rest behind spaces, a comment and the end of the line. -/
def endOfLine? (cs : List Char) : Option (List Char) :=
  match skipComment (skipSpaces cs) with
  | [] => some []
  | rest => newline? rest

/-! ## Strings -/

/-- The number that hexadecimal digits write. -/
def hexValue (digits : List Char) : Option Nat :=
  digits.foldlM (fun n c =>
    if c.isDigit then some (16 * n + (c.toNat - '0'.toNat))
    else if 'a' ≤ c ∧ c ≤ 'f' then some (16 * n + (c.toNat - 'a'.toNat + 10))
    else if 'A' ≤ c ∧ c ≤ 'F' then some (16 * n + (c.toNat - 'A'.toNat + 10))
    else none) 0

/-- The character with a code, if there is one. -/
def scalar? (digits : List Char) : Option Char := do
  let n ← hexValue digits
  if n.isValidChar then some (Char.ofNat n) else none

/-- The escapes of one letter. -/
def escape? : Char → Option Char
  | 'b' => some '\x08'
  | 't' => some '\t'
  | 'n' => some '\n'
  | 'f' => some '\x0c'
  | 'r' => some '\r'
  | '"' => some '"'
  | '\\' => some '\\'
  | _ => none

/-- Put a character before what was read. -/
def push (c : Char) : List Char × List Char → List Char × List Char
  | (text, rest) => (c :: text, rest)

/-- A string on one line, behind its opening quote. -/
def basicString : List Char → Option (List Char × List Char)
  | [] => none
  | '"' :: rest => some ([], rest)
  | '\\' :: 'u' :: a :: b :: c :: d :: rest => do
    let x ← scalar? [a, b, c, d]
    return push x (← basicString rest)
  | '\\' :: 'U' :: a :: b :: c :: d :: e :: f :: g :: h :: rest => do
    let x ← scalar? [a, b, c, d, e, f, g, h]
    return push x (← basicString rest)
  | '\\' :: c :: rest => do
    let x ← escape? c
    return push x (← basicString rest)
  | c :: rest => do
    if c ≠ '\\' && isPlain c then return push c (← basicString rest) else none

/-- A string without escapes on one line, behind its opening apostrophe. -/
def literalString : List Char → Option (List Char × List Char)
  | [] => none
  | c :: rest => do
    if c = apostrophe then return ([], rest)
    if isPlain c then return push c (← literalString rest) else none

/-- Up to two quotes may stand directly before the three that end a string of several lines. -/
def closing (quote : Char) : List Char → List Char × List Char
  | a :: b :: rest =>
    if a = quote then
      if b = quote then ([quote, quote], rest) else ([quote], b :: rest)
    else ([], a :: b :: rest)
  | [a] => if a = quote then ([quote], []) else ([], [a])
  | [] => ([], [])

/-- Whether only spaces stand before the next line break. -/
def endsLine (cs : List Char) : Bool := (newline? (skipSpaces cs)).isSome

/-- A string of several lines, behind its opening quotes. A backslash at the end of a line drops
it together with all blanks that follow; they are being dropped if `skipping`. -/
def multilineBasic (skipping : Bool) : List Char → Option (List Char × List Char)
  | [] => none
  | '"' :: '"' :: '"' :: rest => some (closing '"' rest)
  | '\r' :: '\n' :: rest =>
    if skipping then multilineBasic true rest
    else (multilineBasic false rest).map (push '\n')
  | '\\' :: 'u' :: a :: b :: c :: d :: rest => do
    let x ← scalar? [a, b, c, d]
    return push x (← multilineBasic false rest)
  | '\\' :: 'U' :: a :: b :: c :: d :: e :: f :: g :: h :: rest => do
    let x ← scalar? [a, b, c, d, e, f, g, h]
    return push x (← multilineBasic false rest)
  | '\\' :: c :: rest =>
    if endsLine (c :: rest) then multilineBasic true rest
    else do
      let x ← escape? c
      return push x (← multilineBasic false rest)
  | c :: rest =>
    if skipping && (isSpace c || c = '\n') then multilineBasic true rest
    else if c ≠ '\\' && (isPlain c || c = '\n') then (multilineBasic false rest).map (push c)
    else none

/-- A string of several lines without escapes, behind its opening apostrophes. -/
def multilineLiteral : List Char → Option (List Char × List Char)
  | '\r' :: '\n' :: rest => (multilineLiteral rest).map (push '\n')
  | a :: b :: c :: rest =>
    if a = apostrophe ∧ b = apostrophe ∧ c = apostrophe then some (closing apostrophe rest)
    else if isPlain a || a = '\n' then (multilineLiteral (b :: c :: rest)).map (push a)
    else none
  | _ => none

/-- A line break directly behind the opening quotes is dropped. -/
def skipNewline (cs : List Char) : List Char := (newline? cs).getD cs

/-- A string of any of the four kinds. -/
def string? : List Char → Option (String × List Char)
  | '"' :: '"' :: '"' :: rest =>
    (multilineBasic false (skipNewline rest)).map fun (t, rest) => (String.ofList t, rest)
  | '"' :: rest => (basicString rest).map fun (t, rest) => (String.ofList t, rest)
  | '\x27' :: '\x27' :: '\x27' :: rest =>
    (multilineLiteral (skipNewline rest)).map fun (t, rest) => (String.ofList t, rest)
  | '\x27' :: rest => (literalString rest).map fun (t, rest) => (String.ofList t, rest)
  | _ => none

/-! ## Integers -/

/-- Digits with single underscores between them; also the rest behind them. -/
def digits (isDigit : Char → Bool) : List Char → List Char × List Char
  | '_' :: c :: rest =>
    if isDigit c then push c (digits isDigit rest) else ([], '_' :: c :: rest)
  | c :: rest => if isDigit c then push c (digits isDigit rest) else ([], c :: rest)
  | [] => ([], [])

/-- A number whose first character is a digit. -/
def number? (isDigit : Char → Bool) (base : Nat) : List Char → Option (Nat × List Char)
  | c :: rest =>
    if isDigit c then do
      let (ds, rest) := digits isDigit (c :: rest)
      let n ← ds.foldlM (fun n d => (hexValue [d]).map (base * n + ·)) 0
      return (n, rest)
    else none
  | [] => none

/-- A decimal number without leading zeros. -/
def decimal? : List Char → Option (Nat × List Char)
  | '0' :: rest => some (0, rest)
  | cs => number? Char.isDigit 10 cs

/-- Hexadecimal digits. -/
def isHexDigit (c : Char) : Bool := (hexValue [c]).isSome

/-- An integer: decimal with an optional sign, or hexadecimal, octal or binary without one. -/
def integer? : List Char → Option (Int × List Char)
  | '0' :: 'x' :: rest => (number? isHexDigit 16 rest).map fun (n, r) => (Int.ofNat n, r)
  | '0' :: 'o' :: rest =>
    (number? (fun c => '0' ≤ c && c ≤ '7') 8 rest).map fun (n, r) => (Int.ofNat n, r)
  | '0' :: 'b' :: rest =>
    (number? (fun c => c = '0' || c = '1') 2 rest).map fun (n, r) => (Int.ofNat n, r)
  | '-' :: rest => (decimal? rest).map fun (n, r) => (-Int.ofNat n, r)
  | '+' :: rest => (decimal? rest).map fun (n, r) => (Int.ofNat n, r)
  | cs => (decimal? cs).map fun (n, r) => (Int.ofNat n, r)

/-! ## Values -/

/-- The rest behind blanks, line breaks and comments. -/
def skipLines : (fuel : Nat) → List Char → List Char
  | 0, cs => cs
  | fuel + 1, cs =>
    match skipSpaces cs with
    | '#' :: rest =>
      match newline? (rest.dropWhile isPlain) with
      | some rest => skipLines fuel rest
      | none => '#' :: rest
    | cs =>
      match newline? cs with
      | some rest => skipLines fuel rest
      | none => cs

/-- The strings of an array behind its opening bracket. -/
def strings? : (fuel : Nat) → List Char → Option (List String × List Char)
  | 0, _ => none
  | fuel + 1, cs =>
    match skipLines fuel cs with
    | ']' :: rest => some ([], rest)
    | cs => do
      let (first, rest) ← string? cs
      match skipLines fuel rest with
      | ']' :: rest => return ([first], rest)
      | ',' :: rest =>
        let (others, rest) ← strings? fuel rest
        return (first :: others, rest)
      | _ => none

/-- A value, and the text behind it. -/
def value? (cs : List Char) : Option (Setting × List Char) :=
  match cs with
  | 't' :: 'r' :: 'u' :: 'e' :: rest => some (.flag true, rest)
  | 'f' :: 'a' :: 'l' :: 's' :: 'e' :: rest => some (.flag false, rest)
  | '[' :: rest => (strings? (rest.length + 1) rest).map fun (ts, rest) => (.texts ts, rest)
  | cs =>
    match string? cs with
    | some (t, rest) => some (.text t, rest)
    | none => do
      let (i, rest) ← integer? cs
      if Number.IsInt64 i then return (.number i, rest) else none

/-! ## Documents -/

/-- A bare key, or a string on one line. -/
def key? : List Char → Option (String × List Char)
  | '"' :: rest => (basicString rest).map fun (t, rest) => (String.ofList t, rest)
  | '\x27' :: rest => (literalString rest).map fun (t, rest) => (String.ofList t, rest)
  | cs =>
    match cs.takeWhile isBareKeyChar with
    | [] => none
    | key => some (String.ofList key, cs.dropWhile isBareKeyChar)

/-- The settings of a document, line by line. -/
def settings? : (fuel : Nat) → List Char → Option (List (String × Setting))
  | 0, _ => none
  | fuel + 1, cs =>
    match skipSpaces cs with
    | [] => some []
    | cs =>
      match endOfLine? cs with
      | some rest => settings? fuel rest
      | none => do
        let (key, rest) ← key? cs
        match skipSpaces rest with
        | '=' :: rest =>
          let (value, rest) ← value? (skipSpaces rest)
          let rest ← endOfLine? rest
          let others ← settings? fuel rest
          return (key, value) :: others
        | _ => none

/-- Apply one setting; a key with a value of the wrong kind is refused, like an unknown one. -/
def set? (o : Options) : String × Setting → Option Options
  | ("exception_base", .text t) =>
    match TypeRef.parse t with
    | .ok type => some { o with exceptionBase := some type }
    | .error _ => none
  | ("ignorable_methods", .texts ts) => some { o with ignorableMethods := ts }
  | ("ignore_exception_base_methods", .flag b) => some { o with ignoreExceptionBaseMethods := b }
  | ("max_recursion_depth", .number i) =>
    if 0 ≤ i then some { o with maxRecursionDepth := i.toNat } else none
  | ("max_paths", .number i) => if 0 ≤ i then some { o with maxPaths := i.toNat } else none
  | _ => none

/-- A byte order mark may stand before the document. -/
def skipMark : List Char → List Char
  | '\ufeff' :: rest => rest
  | cs => cs

end Toml

/-- Why a document gives no options. -/
inductive Error where
  | invalid
  | noPaths
  | unreadable (path : String)
deriving DecidableEq

/-- Why options are not accepted. -/
def Error.message : Error → String
  | .invalid => "invalid smt-form options"
  | .noPaths => "max_paths must be positive"
  | .unreadable path => "cannot read options from " ++ path

/-- Read options from a document. No key may stand there twice. -/
def ofToml (text : String) : Except Error Options :=
  match Toml.settings? (text.length + 1) (Toml.skipMark text.toList) with
  | none => .error .invalid
  | some settings =>
    if (settings.map (·.1)).eraseDups.length < settings.length then .error .invalid
    else
      match settings.foldlM Toml.set? {} with
      | none => .error .invalid
      | some options => if options.maxPaths = 0 then .error .noPaths else .ok options

end Pathwise.Options
