import UnionTypes.Class.Builtin
import UnionTypes.Class.Member
import UnionTypes.Ty.Basic

/-!
# Members of a type

What a name stands for on a value of a type, and which names the type offers. The null types answer
as their class does. A union gathers the answers of its members in stored order; weakness plays no
part.
-/

namespace UnionTypes

/-- Puts two answers together. There is no answer only if neither side has one. -/
def pool {α : Type} : Option (List α) → Option (List α) → Option (List α)
  | none, r => r
  | l, none => l
  | some l, some r => some (l ++ r)

namespace Ty

mutual

/-- What the name stands for on a value of the type. An empty list says that the access is
impossible; no answer says that no member can tell. -/
def resolve (name : String) (access : Access) : Ty → Option (List Resolution)
  | .cls c => c.resolve name access
  | .none | .weakNone => Class.Builtin.noneType.resolve name access
  | .union ⟨ms, _⟩ | .dynamic ⟨ms, _⟩ => resolveAll name access ms

def resolveAll (name : String) (access : Access) : List Ty → Option (List Resolution)
  | [] => Option.none
  | m :: ms => pool (resolve name access m) (resolveAll name access ms)

end

mutual

/-- The members of the type whose names start with the stem, each once. -/
def complete (stem : String) : Ty → List Member
  | .cls c => c.complete stem
  | .none | .weakNone => Class.Builtin.noneType.complete stem
  | .union ⟨ms, _⟩ | .dynamic ⟨ms, _⟩ => (completeAll stem ms).eraseDups

def completeAll (stem : String) : List Ty → List Member
  | [] => []
  | m :: ms => complete stem m ++ completeAll stem ms

end

mutual

/-- Whether every possible value is of a class of the language. What may be absent, or is known
only while the program runs, is not. -/
def isBuiltin : Ty → Bool
  | .cls c => c.builtin
  | .none | .weakNone => true
  | .union ⟨ms, w⟩ => !w && allBuiltin ms
  | .dynamic _ => false

def allBuiltin : List Ty → Bool
  | [] => true
  | m :: ms => isBuiltin m && allBuiltin ms

end

theorem completeAll_eq_flatMap (stem : String) (ms : List Ty) :
    completeAll stem ms = ms.flatMap (complete stem) := by
  induction ms with
  | nil => rfl
  | cons m ms ih => rw [completeAll, ih, List.flatMap_cons]

theorem allBuiltin_eq_all (ms : List Ty) : allBuiltin ms = ms.all isBuiltin := by
  induction ms with
  | nil => rfl
  | cons m ms ih => rw [allBuiltin, ih, List.all_cons]

end Ty

end UnionTypes
