import Pathwise.Form.Block
import Pathwise.Sentence.Operation

/-!
# Pathwise.Form.Lowering

What one instruction of a graph becomes: plain assertions, the two sides of a
branch, or fault groups followed by assertions that hold if no fault occurs.

An operand whose type differs from the one an instruction needs is converted by
the sentence of its own type.
-/

namespace Pathwise

/-- Why a graph has no form. -/
inductive LoweringError where
  | unsupportedInstruction (method : MethodRef) (offset : Nat) (opcode : String)
  | unsupportedOperation (cause : UnsupportedOperation)
  | sentence (cause : Sentence.Error)
  | malformedGraph (method : MethodRef) (defect : MethodGraph.Defect)
  | lacksOperand (method : MethodRef) (opcode : String) (offset index : Nat)
  | lacksTarget (method : MethodRef) (opcode : String) (offset : Nat)
  | argumentCount (method callee : MethodRef) (offset count : Nat)
  | branchInside (method : MethodRef) (offset : Nat)
  | conditionalSuccessors (method : MethodRef) (block : Nat)
  | severalSuccessors (method : MethodRef) (block : Nat)
  | tooManyParameters (method : MethodRef)
  | missingBlock (index : Nat)
  | danglingEdge (source target : BlockId)
deriving DecidableEq

namespace LoweringError

/-- Why a graph has no form. -/
def message : LoweringError → String
  | .unsupportedInstruction method offset opcode =>
    s!"instruction '{opcode}' at offset {offset} of {method} has no encoding"
  | .unsupportedOperation cause => cause.message
  | .sentence cause => cause.message
  | .malformedGraph method defect => "invalid argument: " ++ defect.message method
  | .lacksOperand method opcode offset index =>
    s!"invalid argument: '{opcode}' at offset {offset} of {method} lacks operand {index}"
  | .lacksTarget method opcode offset =>
    s!"invalid argument: '{opcode}' at offset {offset} of {method} lacks a target"
  | .argumentCount method callee offset count =>
    s!"invalid argument: call of {callee} at offset {offset} of {method} passes {count} arguments"
  | .branchInside method offset =>
    s!"invalid argument: branch at offset {offset} of {method} does not end its block"
  | .conditionalSuccessors method block =>
    s!"invalid argument: conditional block {block} of {method} needs exactly two successors"
  | .severalSuccessors method block =>
    s!"invalid argument: block {block} of {method} has several successors but no branch"
  | .tooManyParameters method => s!"invalid argument: too many parameters in {method}"
  | .missingBlock index => s!"invalid argument: missing graph block {index}"
  | .danglingEdge source target =>
    s!"invalid argument: edge from {source} into untranslated block {target}"

end LoweringError

/-- Constant of a variable in its method. A static field has one constant for all methods. -/
def MethodRef.variableSymbol (m : MethodRef) (v : Variable) : String :=
  match v.slot with
  | .staticField f => Text.symbol f.text
  | slot => m.symbol ++ "!" ++ slot.text

/-- Where the sentences of types come from. -/
abbrev SentenceLookup := TypeRef → Except LoweringError Sentence

/-- A fault that an instruction checks for: when it occurs, and when not. -/
structure FaultCheck where
  kind : FaultKind
  occurs : Sexp
  absent : Sexp

/-- What an instruction becomes. -/
inductive Lowered where
  | plain (statements : List Statement)
  /-- One guard for each group, and what holds after the instruction if no fault occurs. -/
  | faulting (groups : List (FaultGroup × Statement)) (semantics : List Statement)
  | branch (taken notTaken : Statement)

/-- The method under encoding and its source of sentences. -/
structure Lowering where
  method : MethodRef
  lookup : SentenceLookup

namespace Lowering

open MethodGraph (Instruction)

/-- The constant of a variable. -/
def symbol (c : Lowering) (v : Variable) : String := c.method.variableSymbol v

/-- A variable as a term. -/
def term (c : Lowering) (v : Variable) : Sexp := .atom (c.symbol v)

/-- An operation on values of a sentence. -/
def apply (s : Sentence) (op : Operation) : Except LoweringError Sexp :=
  (s.apply op).mapError .unsupportedOperation

/-- An operand that an opcode needs. -/
def operand (c : Lowering) (i : Instruction) (index : Nat) : Except LoweringError Variable :=
  match i.operands[index]? with
  | some v => .ok v
  | none => .error (.lacksOperand c.method i.opcode.name i.offset index)

/-- The target that an opcode needs. -/
def target (c : Lowering) (i : Instruction) : Except LoweringError Variable :=
  match i.target with
  | some v => .ok v
  | none => .error (.lacksTarget c.method i.opcode.name i.offset)

/-- A variable as a term of a given type. -/
def coerce (c : Lowering) (v : Variable) (type : TypeRef) : Except LoweringError Sexp :=
  if v.type = type then .ok (c.term v)
  else do apply (← c.lookup v.type) (.convert (c.term v) type)

/-- The target of an instruction equals a term. -/
def equate (c : Lowering) (target : Variable) (e : Sexp) : Except LoweringError Sexp := do
  apply (← c.lookup target.type) (.equal (c.term target) e)

/-- The assertion that an instruction computes a term. -/
def defining (c : Lowering) (i : Instruction) (e : Sexp) : Except LoweringError Statement := do
  let target ← c.target i
  return .assertion i.offset [← c.equate target e]

/-! ## Faults -/

/-- Group `k` asserts that check `k` is the first of the checks to occur. -/
def faultGroups (offset : Nat) (absent : List Sexp) :
    (ordinal : Nat) → List FaultCheck → List (FaultGroup × Statement)
  | _, [] => []
  | ordinal, check :: checks =>
    ({ ordinal, fault := some check.kind, offset }, .assertion offset (absent ++ [check.occurs])) ::
      faultGroups offset (absent ++ [check.absent]) (ordinal + 1) checks

/-- Group 0 asserts `normal`. Without any check there is no fault. -/
def faulting (offset : Nat) (normal : List Sexp) (checks : List FaultCheck)
    (semantics : List Statement) : Lowered :=
  if checks.isEmpty then .plain semantics
  else
    .faulting
      (({ ordinal := 0, fault := none, offset }, .assertion offset normal) ::
        faultGroups offset [] 1 checks)
      semantics

/-- The check that a reference is null. -/
def nullCheck (s : Sentence) (a : Sexp) : Except LoweringError FaultCheck := do
  return { kind := .nullReference
           occurs := ← apply s (.isNull a)
           absent := ← apply s (.isNotNull a) }

/-- What an element access needs, and its faults: null first, then the bounds. -/
def elementGuards (s : Sentence) (array index : Sexp) :
    Except LoweringError (List Sexp × List FaultCheck) := do
  let below ← apply s (.belowLowerBound array index)
  let above ← apply s (.aboveUpperBound array index)
  let notNull ← apply s (.isNotNull array)
  let inRange ← apply s (.inRange array index)
  return ([notNull, inRange],
    [← nullCheck s array,
     { kind := .indexBelowRange, occurs := below, absent := below.not },
     { kind := .indexAboveRange, occurs := above, absent := above.not }])

/-- References other than value types can be null. -/
def nullable (s : Sentence) : Bool := s.isReference && s.isNullable

/-! ## Calls -/

/-- The arguments of a call as terms of the parameter types. -/
def arguments (c : Lowering) : List (Variable × TypeRef) → Except LoweringError (List Sexp)
  | [] => .ok []
  | (v, type) :: rest => do
    let first ← c.coerce v type
    let others ← c.arguments rest
    return first :: others

/-- A call. With virtual dispatch the receiver must not be null, and the method that runs must be
an override if the called one is abstract. -/
def lowerCall (c : Lowering) (i : Instruction) (callee : MethodRef) (virtualDispatch : Bool) :
    Except LoweringError Lowered := do
  let slots := callee.parameterSlots
  if slots.length ≠ i.operands.length then
    throw (.argumentCount c.method callee i.offset i.operands.length)
  let arguments ← c.arguments (i.operands.zip slots)
  let target := if callee.returnsValue then i.target.map c.symbol else none
  let call := (Statement.assertion i.offset []).withEffect (.call callee arguments target)
  if !virtualDispatch || callee.isStatic then
    return .plain [call]
  let receiver ← c.operand i 0
  let s ← c.lookup receiver.type
  let a := c.term receiver
  let (normal, checks) ←
    if nullable s then do
      let check ← nullCheck s a
      pure ([← apply s (.isNotNull a)], [check])
    else pure ([], [])
  if callee.isAbstract then
    let exact ← apply s (.hasExactType a (.atom callee.declaring.tag))
    return faulting i.offset (normal ++ [exact.not])
      (checks ++ [{ kind := .missingOverride, occurs := exact, absent := exact.not }])
      [call.mentioning callee.declaring]
  else
    return faulting i.offset normal checks [call]

/-! ## Instructions -/

/-- What holds if a branch is taken, and if not. -/
def branchTerms (a : Sexp) : BranchTest → Operation × Operation
  | .ifTrue => (.isTrue a, .isFalse a)
  | .ifFalse => (.isFalse a, .isTrue a)
  | .ifNull => (.isNull a, .isNotNull a)
  | .ifNotNull => (.isNotNull a, .isNull a)

/-- Encode one instruction. -/
def lower (c : Lowering) (i : Instruction) : Except LoweringError Lowered :=
  match i.opcode with
  | .assign => do
    let target ← c.target i
    let source ← c.operand i 0
    let value ← c.coerce source target.type
    let e ← c.equate target value
    return .plain
      [(Statement.assertion i.offset [e]).withEffect (.assign (c.term source) (c.symbol target))]
  | .constant literal => do
    let target ← c.target i
    let e ← apply (← c.lookup target.type) (.holdsLiteral (c.term target) literal)
    return .plain [.assertion i.offset [e]]
  | .binary op => do
    let a ← c.operand i 0
    let b ← c.operand i 1
    let s ← c.lookup a.type
    let e ← apply s (.arithmetic op (c.term a) (← c.coerce b a.type))
    return .plain [← c.defining i e]
  | .compare op => do
    let a ← c.operand i 0
    let b ← c.operand i 1
    let s ← c.lookup a.type
    let e ← apply s (.compare op (c.term a) (← c.coerce b a.type))
    return .plain [← c.defining i e]
  | .not => do
    let a ← c.operand i 0
    let e ← apply (← c.lookup a.type) (.not (c.term a))
    return .plain [← c.defining i e]
  | .branch test => do
    let a ← c.operand i 0
    let s ← c.lookup a.type
    let (taken, notTaken) := branchTerms (c.term a) test
    let taken ← apply s taken
    let notTaken ← apply s notTaken
    return .branch (.branch i.offset taken) (.assertion i.offset [notTaken])
  | .jump => .ok (.plain [])
  | .call callee virtualDispatch => c.lowerCall i callee virtualDispatch
  | .newObject constructor => do
    let target ← c.target i
    let allocated ← apply (← c.lookup target.type) (.allocated (c.term target))
    if i.operands.length ≠ constructor.parameters.length then
      throw (.argumentCount c.method constructor i.offset i.operands.length)
    let arguments ← c.arguments (i.operands.zip constructor.parameters)
    let effect :=
      Effect.construct target.type (c.symbol target) constructor (c.term target :: arguments)
    return .plain
      [((Statement.assertion i.offset [allocated]).withEffect effect).mentioning
        constructor.declaring]
  | .newArray element => do
    let target ← c.target i
    let length ← c.operand i 0
    let s ← c.lookup target.type
    let a := c.term target
    let notNull ← apply s (.isNotNull a)
    let int ← c.lookup .int32
    let actual ← apply s (.length a)
    let wanted ← c.coerce length .int32
    let sized ← apply int (.equal actual wanted)
    let exact ← apply s (.hasExactType a (.atom s.tag))
    let effect := Effect.allocate target.type (c.symbol target)
    let statement := (Statement.assertion i.offset [notNull, sized, exact]).withEffect effect
    return .plain [(statement.mentioning element).mentioning target.type]
  | .arrayLength => do
    let array ← c.operand i 0
    let s ← c.lookup array.type
    let a := c.term array
    let semantics ← c.defining i (← apply s (.length a))
    let check ← nullCheck s a
    let notNull ← apply s (.isNotNull a)
    return faulting i.offset [notNull] [check] [semantics]
  | .loadElement => do
    let array ← c.operand i 0
    let index ← c.operand i 1
    let s ← c.lookup array.type
    let a := c.term array
    let at_ ← c.coerce index .int32
    let semantics ← c.defining i (← apply s (.elementAt a at_))
    let (normal, checks) ← elementGuards s a at_
    return faulting i.offset normal checks [semantics]
  | .storeElement => do
    let array ← c.operand i 0
    let index ← c.operand i 1
    let value ← c.operand i 2
    let s ← c.lookup array.type
    let a := c.term array
    let at_ ← c.coerce index .int32
    let stored ← c.coerce value (array.type.element?.getD value.type)
    let semantics ← c.defining i (← apply s (.storeElement a at_ stored))
    let (normal, checks) ← elementGuards s a at_
    return faulting i.offset normal checks [semantics]
  | .loadField field => do
    let object ← c.operand i 0
    let e ← apply (← c.lookup object.type) (.loadField (c.term object) field.name)
    return .plain [← c.defining i e]
  | .storeField field => do
    let object ← c.operand i 0
    let value ← c.operand i 1
    let s ← c.lookup object.type
    match s.field? field.name with
    | none =>
      throw
        (.unsupportedOperation { operation := "store-field " ++ field.name, sentence := s.name })
    | some f =>
      let e ← apply s (.storeField (c.term object) field.name (← c.coerce value f.type))
      return .plain [← c.defining i e]
  | .ret => do
    let value ←
      if c.method.returnsValue then do
        let v ← c.operand i 0
        pure (some (← c.coerce v c.method.returnType))
      else pure none
    return .plain [(Statement.assertion i.offset []).withEffect (.ret value)]
  | .throw => do
    let v ← c.operand i 0
    return .plain [(Statement.assertion i.offset []).withEffect (.throw (c.term v))]
  | .convert type => do
    let v ← c.operand i 0
    let converted ← c.coerce v type
    return .plain [(← c.defining i converted).mentioning type]
  | .isInstance type => do
    let v ← c.operand i 0
    let e ← apply (← c.lookup v.type) (.instanceOf (c.term v) (.atom type.tag))
    return .plain [(← c.defining i e).mentioning type]
  | .unsupported name => .error (.unsupportedInstruction c.method i.offset name)

end Lowering

end Pathwise
