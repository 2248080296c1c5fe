/-!
# Failures

Why an operation on types or on settings was refused.
-/

namespace UnionTypes

inductive Failure where
  /-- A type is unusable because of this member of it; the message is the caller's. -/
  | invalidType (message member : String)
  /-- An argument was missing or empty. -/
  | invalidArgument (detail : String)
  /-- Settings could not be read, or make no sense. -/
  | invalidSettings (detail : String)
deriving DecidableEq, Repr

namespace Failure

/-- A union was to be built from nothing that it could store. -/
def emptyUnion : Failure := .invalidArgument "a union needs at least one member"

def text : Failure → String
  | .invalidType message member => message ++ ": invalid type state in '" ++ member ++ "'"
  | .invalidArgument detail => "invalid argument: " ++ detail
  | .invalidSettings detail => "invalid lattice configuration: " ++ detail

/-- The member at fault, where one is. -/
def member? : Failure → Option String
  | .invalidType _ member => some member
  | _ => none

end Failure

instance : ToString Failure where
  toString := Failure.text

/-- Why a document was not accepted. -/
inductive ReadFailure where
  /-- It is not of the form that was asked for. -/
  | malformed
  /-- It is of that form, and what it says is refused. -/
  | refused (cause : Failure)
deriving DecidableEq, Repr

end UnionTypes
