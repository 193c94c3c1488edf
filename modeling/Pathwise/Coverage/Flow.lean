import Pathwise.Coverage.Site

/-!
# Pathwise.Coverage.Flow

Value flows: that a constant takes the value of a term. Following the latest flow
into each constant backwards leads to where a value comes from.
-/

namespace Pathwise

/-- A flow: at an offset of a site, reached through a call stack, the value of `source` goes into
`target`. Both are renamed for their sites. -/
structure FlowKey where
  offset : Nat
  source : String
  target : String
  site : Site
  /-- The open invocations, the root first. -/
  stack : List Site
deriving DecidableEq, Inhabited

/-- The root of the run that a flow belongs to. -/
def FlowKey.root? (k : FlowKey) : Option Site := k.stack.head?

/-- A recorded flow. Two records are the same if they have the same number. -/
structure Flow where
  id : Nat
  key : FlowKey
deriving DecidableEq, Inhabited

namespace Flow

/-- The term that a value comes from. -/
def source (f : Flow) : String := f.key.source
/-- The constant that a value goes to. -/
def target (f : Flow) : String := f.key.target

end Flow

/-- The flows along one path, the latest first. Only the latest flow into a constant counts. -/
structure Flows where
  recorded : List Flow
deriving DecidableEq, Inhabited

namespace Flows

/-- No flows. -/
def empty : Flows := ⟨[]⟩

/-- Add a flow as the latest one. -/
def record (t : Flows) (f : Flow) : Flows := ⟨f :: t.recorded⟩

/-- Add the flows of a path that comes after this one. -/
def merge (t later : Flows) : Flows := ⟨later.recorded ++ t.recorded⟩

/-- The latest flow into a constant. -/
def latest? (t : Flows) (symbol : String) : Option Flow :=
  t.recorded.find? (·.target = symbol)

/-- Follow flows backwards until there is none, or it has been followed before. -/
def trace (t : Flows) : (fuel : Nat) → (symbol : String) → (followed : List Flow) → List Flow
  | 0, _, _ => []
  | fuel + 1, symbol, followed =>
    match t.latest? symbol with
    | none => []
    | some f =>
      if followed.any (·.id = f.id) then []
      else f :: t.trace fuel f.source (f :: followed)

/-- The flows that lead into a constant, the latest first. No flow is followed twice. -/
def ancestry (t : Flows) (symbol : String) : List Flow :=
  t.trace (t.recorded.length + 1) symbol []

/-- The earliest constant or term whose value reaches a constant. -/
def origin (t : Flows) (symbol : String) : String :=
  match (t.ancestry symbol).getLast? with
  | some f => f.source
  | none => symbol

end Flows

end Pathwise
