import SearchQuery.Error

/-!
Why a computation stops. Besides the errors that a text can be blamed for, there are slices out of
range. They stop the computation as well, and whoever asked for the result is told of an internal
error.
-/

namespace SearchQuery

/-- A slice of something that does not have it. -/
inductive Panic where
  /-- A slice of a list of `length` items starts behind its end. -/
  | range (start length : Nat)
  /-- A slice of a text starts or ends inside a character or behind the end of the text. -/
  | boundary (offset : Nat)
deriving DecidableEq, Repr

def Panic.message : Panic → String
  | range start length => "range start index " ++ toString start ++
      " out of range for slice of length " ++ toString length
  | boundary offset => "byte index " ++ toString offset ++ " is not a char boundary"

/-- Why there is no result. -/
inductive Halt where
  | error (e : Error)
  | panic (p : Panic)
deriving DecidableEq, Repr

variable {α : Type}

/-- The error that the outside is told of. -/
def Halt.toError : Halt → Error
  | error e => e
  | panic p => .internal p.message

/-- A result of a computation in which nothing is out of range, as far as the outside can tell. -/
def guarded (result : Except Halt α) : Except Error α :=
  result.mapError Halt.toError

@[simp]
theorem guarded_ok (a : α) : guarded (.ok a) = .ok a := rfl

@[simp]
theorem guarded_error (h : Halt) : guarded (.error h : Except Halt α) = .error h.toError := rfl

end SearchQuery
