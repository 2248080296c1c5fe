import UnionTypes.Ty.Flatten
import UnionTypes.Ty.Name

/-!
# Validity

A type can be used as long as every class that it reaches, by membership or inheritance, still has
a source. The check stops at the first class that has none, raises one warning about it and fails
with the caller's message.
-/

namespace UnionTypes

/-- Warns of the member and fails because of it. -/
def reject {α : Type} (message member : String) : FallibleM α := do
  warn { reason := .invalidMember member }
  throw (.invalidType message member)

mutual

/-- Fails at the first class of the inheritance tree that is invalid. -/
def Class.validate (message : String) : Class → FallibleM Unit
  | c@⟨_, _, _, _, valid, _, bases⟩ =>
    if valid then Class.validateAll message bases else reject message c.qualifiedName

def Class.validateAll (message : String) : List Class → FallibleM Unit
  | [] => return
  | c :: cs => do
    Class.validate message c
    Class.validateAll message cs

end

/-- What is wrong with a list of members, before the members are looked into: that there is none,
or that one of them must not be stored. -/
def UnionOf.fault? (ms : List Ty) : Option String :=
  if ms.isEmpty then some "<empty union>" else (ms.find? fun m => !decide m.Storable).map toString

namespace Ty

mutual

/-- Fails at the first member that makes the type unusable. -/
def validate (message : String) : Ty → FallibleM Unit
  | .cls c => c.validate message
  | .none | .weakNone => return
  | .union ⟨ms, _⟩ | .dynamic ⟨ms, _⟩ =>
    match UnionOf.fault? ms with
    | some member => reject message member
    | Option.none => validateAll message ms

def validateAll (message : String) : List Ty → FallibleM Unit
  | [] => return
  | m :: ms => do
    validate message m
    validateAll message ms

end

end Ty

end UnionTypes
