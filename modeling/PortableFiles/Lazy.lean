import PortableFiles.Failure.Error
set_option autoImplicit false

/-!
# Values computed at first access

A lazy cell holds nothing until it is first read.  The first access computes the value and keeps
what came of it, value or error; every later access finds that outcome and computes nothing.
-/

namespace PortableFiles

/-- A value that is computed at first access. -/
inductive Lazy (α : Type) where
  /-- Nobody has asked yet. -/
  | unresolved
  /-- The value is known. -/
  | resolved (value : α)
  /-- The first access failed. -/
  | failed (error : Error)
  deriving DecidableEq, Repr, Inhabited

namespace Lazy

variable {α : Type}

/-- The cell of a value that may be known already. -/
def ofOption : Option α → Lazy α
  | some value => .resolved value
  | none => .unresolved

/-- The cell that keeps an outcome. -/
def ofOutcome : Except Error α → Lazy α
  | .ok value => .resolved value
  | .error e => .failed e

/-- The value, if there is one. -/
def value? : Lazy α → Option α
  | .resolved value => some value
  | _ => none

/-- The error of the first access, if it failed. -/
def error? : Lazy α → Option Error
  | .failed e => some e
  | _ => none

/-- Whether the cell still waits for its first access. -/
def isUnresolved : Lazy α → Bool
  | .unresolved => true
  | _ => false

/-- The cell after an access.  The resolver is run only if nobody has asked before. -/
def access {m : Type → Type} [Monad m] (cell : Lazy α) (resolver : m (Except Error α)) :
    m (Lazy α) :=
  match cell with
  | .unresolved => do return ofOutcome (← resolver)
  | known => pure known

/-- The name of the state a cell is in. -/
def stateName : Lazy α → String
  | .unresolved => "Unresolved"
  | .resolved _ => "Resolved"
  | .failed _ => "ResolvedWithError"

/-- The text of a cell, given the text of a value. -/
def render (text : α → String) : Lazy α → String
  | .unresolved => "<Unresolved>"
  | .resolved value => text value
  | .failed e => "<error: " ++ e.message ++ ">"

/-- After an access the cell has an outcome. -/
theorem isUnresolved_ofOutcome (r : Except Error α) : (ofOutcome r).isUnresolved = false := by
  cases r <;> rfl

/-- A cell with an outcome runs no resolver and stays as it is. -/
theorem access_of_isUnresolved_eq_false {m : Type → Type} [Monad m] {cell : Lazy α}
    (h : cell.isUnresolved = false) (resolver : m (Except Error α)) :
    cell.access resolver = pure cell := by
  cases cell with
  | unresolved => cases h
  | resolved value => rfl
  | failed e => rfl

end Lazy

end PortableFiles
