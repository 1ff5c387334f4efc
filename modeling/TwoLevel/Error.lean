/-
  The reasons for which a request is refused, and their wording.

  `TextError`: a text which cannot be read. `InputError`: two lists of minterms which describe no
  function. `Defect`: a state of the search which its invariants exclude. `Error` joins the three
  with a file which cannot be read or written; only a defect is internal.
-/

namespace TwoLevel

/-! ## Texts -/

/-- A text which cannot be read, with the part of it which the message quotes. -/
inductive TextError where
  | mintermList (text : String)
  | overflow (digits : String)
  | lineCount (found : Nat)
  | pattern (text : String)
  | term (text : String)
  deriving DecidableEq

/-- The quoted part is inserted as it stands. -/
def TextError.message : TextError → String
  | mintermList text => "'" ++ text ++ "' is not a list of non-negative integers"
  | overflow digits => "'" ++ digits ++ "' is too large to be used as a minterm"
  | lineCount found =>
    "Expected two lines (ON-set then OFF-set), found " ++ Nat.repr found
  | pattern text => "'" ++ text ++ "' is not a valid pattern"
  | term text => "'" ++ text ++ "' is not a valid product term"

/-! ## Sets of minterms -/

/-- Two lists of minterms which describe no function. -/
inductive InputError where
  | negative (minterm : Int64)
  | shared (minterm : UInt64)
  deriving DecidableEq

def InputError.message : InputError → String
  | negative minterm => "negative minterm " ++ Int.repr minterm.toInt
  | shared minterm => "minterm " ++ Nat.repr minterm.toNat ++ " is in both sets"

/-! ## Searches -/

/-- A state of the search which its invariants exclude. -/
inductive Defect where
  | rowWithoutColumn
  | noCover
  | uncoveredMinterm
  deriving DecidableEq

def Defect.message : Defect → String
  | rowWithoutColumn => "a row of the covering matrix is hit by no column"
  | noCover => "no selection of columns covers the matrix"
  | uncoveredMinterm => "some minterms are not covered by their own implicant"

/-! ## All of them -/

/-- Any reason for which a request is refused. -/
inductive Error where
  | input (reason : InputError)
  | defect (reason : Defect)
  | text (reason : TextError)
  /-- A file cannot be read or written; the cause is in the words of the operating system. -/
  | io (cause : String)
  deriving DecidableEq

def Error.message : Error → String
  | input reason => "Invalid input data: " ++ reason.message
  | defect reason => "Undefined behaviour has been observed: " ++ reason.message
  | text reason => reason.message
  | io cause => "I/O error: " ++ cause

/-- Only a defect of the search is not the fault of the request. -/
def Error.isInternal : Error → Bool
  | defect _ => true
  | _ => false

end TwoLevel
