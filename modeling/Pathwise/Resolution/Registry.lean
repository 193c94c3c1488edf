import Pathwise.Table

/-!
# Pathwise.Resolution.Registry

Scopes and the handlers they hold. A scope is a unit of resolution work: its
handlers are subscribed when it is entered and unsubscribed when it is left. A
nested scope asks its own handlers before those of the scope around it.
-/

namespace Pathwise

/-- A scope with its handlers, of type `τ` for types and `μ` for methods, the innermost first. -/
structure Scope (τ μ : Type) where
  id : Nat
  depth : Nat
  typeHandlers : List τ
  methodHandlers : List μ

/-- The scopes that are open, with the number of handlers each one holds. -/
structure Registry where
  nextScope : Nat
  live : Table Nat Nat
deriving DecidableEq, Inhabited

namespace Registry

variable {τ μ : Type}

/-- A registry without scopes. -/
def empty : Registry := { nextScope := 0, live := ∅ }

/-- Open a scope with its own handlers. -/
def subscribe (r : Registry) (depth : Nat) (types : List τ) (methods : List μ) :
    Scope τ μ × Registry :=
  ({ id := r.nextScope, depth, typeHandlers := types, methodHandlers := methods },
   { nextScope := r.nextScope + 1, live := r.live.set r.nextScope (types.length + methods.length) })

/-- Enter a scope that stands in no other. -/
def enter (r : Registry) (types : List τ) (methods : List μ) : Scope τ μ × Registry :=
  r.subscribe 0 types methods

/-- Enter a scope inside another one. -/
def nest (r : Registry) (s : Scope τ μ) (types : List τ) (methods : List μ) :
    Scope τ μ × Registry :=
  r.subscribe (s.depth + 1) (types ++ s.typeHandlers) (methods ++ s.methodHandlers)

/-- Leave a scope. Leaving it again changes nothing. -/
def leave (r : Registry) (s : Scope τ μ) : Registry := { r with live := r.live.erase s.id }

/-- How many handlers the open scopes hold. -/
def activeSubscriptions (r : Registry) : Nat := r.live.values.foldl (· + ·) 0

/-- The number of open scopes. -/
def activeScopes (r : Registry) : Nat := r.live.size

end Registry

end Pathwise
