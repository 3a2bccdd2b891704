/-!
# Calls that panic

A Go function either returns its results or panics.  A call that may panic is
`Except Panic`, and an error that the function returns is part of its result.
-/

namespace Gofusion.Utils

/-- Why a call panics. -/
inductive Panic
  /-- An index or a slice bound behind the end. -/
  | outOfRange
  | nilDereference
  /-- `utils.Must` or `utils.MustSuccess` on an error. -/
  | must
  /-- A call of the package `reflect` on a value or type it does not accept. -/
  | reflect
  /-- A `panic` statement of the code. -/
  | raised
  /-- An assertion `x.(T)` on a value of another type, or on `nil`. -/
  | typeAssertion
deriving DecidableEq, Repr

end Gofusion.Utils
