import Pathwise.Coverage.Flow
import Pathwise.Coverage.Path

/-!
# Pathwise.Coverage.Context

Bookkeeping that runs share: which numbers are in use for runs, calls and
allocated objects, the flows of the current run, and the paths of forms that were
enumerated before. The same call, and the same allocation, reached along
different paths of a run keep their number.
-/

namespace Pathwise

/-- A call: where it is made and what it runs. -/
structure CallKey where
  parent : Site
  offset : Nat
  callee : MethodRef
deriving DecidableEq, Inhabited

/-- Shared state of runs. -/
structure Context where
  /-- Number of the next run of a method. -/
  sequences : Table MethodRef Nat
  /-- Number of calls of a method so far in the runs with a number. -/
  callOrders : Table (MethodRef × Nat) Nat
  /-- Number of objects of a type so far. -/
  pointers : Table TypeRef Nat
  sites : Table CallKey Site
  allocations : Table (Site × Nat) Nat
  flows : Table FlowKey Flow
  nextFlow : Nat
  skeletons : Table (MethodRef × Nat) (Form × List Skeleton)
deriving Inhabited

namespace Context

/-- A context in which nothing has been run. -/
def empty : Context :=
  { sequences := ∅, callOrders := ∅, pointers := ∅, sites := ∅, allocations := ∅, flows := ∅
    nextFlow := 0, skeletons := ∅ }

/-- Site of a new run of a method. -/
def rootSite (c : Context) (m : MethodRef) : Site × Context :=
  let sequence := (c.sequences.find? m).getD 0
  ({ method := m, sequence, callOrder := 0 },
   { c with sequences := c.sequences.set m (sequence + 1) })

/-- Site of a call. -/
def callSite (c : Context) (parent : Site) (offset : Nat) (callee : MethodRef) : Site × Context :=
  let key : CallKey := { parent, offset, callee }
  match c.sites.find? key with
  | some site => (site, c)
  | none =>
    let order := (c.callOrders.find? (callee, parent.sequence)).getD 0 + 1
    let site : Site := { method := callee, sequence := parent.sequence, callOrder := order }
    (site, { c with
      callOrders := c.callOrders.set (callee, parent.sequence) order
      sites := c.sites.set key site })

/-- Pointer of the object that a site allocates at an offset. -/
def pointer (c : Context) (site : Site) (offset : Nat) (type : TypeRef) : Nat × Context :=
  match c.allocations.find? (site, offset) with
  | some n => (n, c)
  | none =>
    let n := (c.pointers.find? type).getD 0 + 1
    (n, { c with
      pointers := c.pointers.set type n
      allocations := c.allocations.set (site, offset) n })

/-- The record of a flow. -/
def flow (c : Context) (key : FlowKey) : Flow × Context :=
  match c.flows.find? key with
  | some f => (f, c)
  | none =>
    let f : Flow := { id := c.nextFlow, key }
    (f, { c with flows := c.flows.insertNew key f, nextFlow := c.nextFlow + 1 })

/-- Forget the flows of the run with a root. -/
def release (c : Context) (root : Site) : Context :=
  { c with flows := ⟨c.flows.entries.filter (·.1.root? ≠ some root)⟩ }

/-- The number of flows that are stored. -/
def flowCount (c : Context) : Nat := c.flows.size

/-- Paths of a form. They are enumerated once for a method and a limit, and again when another form
of the method comes. -/
def paths (c : Context) (f : Form) (limit : Nat) :
    Except CoverageError (List Skeleton) × Context :=
  let enumerate : Except CoverageError (List Skeleton) × Context :=
    match f.paths limit with
    | .ok skeletons =>
      (.ok skeletons, { c with skeletons := c.skeletons.set (f.method, limit) (f, skeletons) })
    | .error err => (.error err, c)
  match c.skeletons.find? (f.method, limit) with
  | some (known, skeletons) => if known.same f then (.ok skeletons, c) else enumerate
  | none => enumerate

end Context

end Pathwise
