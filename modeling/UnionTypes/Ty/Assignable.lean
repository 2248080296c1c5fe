import UnionTypes.Class.Lineage
import UnionTypes.Ty.Basic

/-!
# Assignability

Which types are accepted where another type is expected. A context answers that question as it
likes, but from the two types alone. The structural contexts answer it from the make of the two:
every member of the actual type has to find a member of the expected type that accepts it, a class
is accepted where it inherits from the expected one, and the top class accepts everything. An absent
value is accepted everywhere.
-/

namespace UnionTypes

/-- The circumstances in which types are compared and shown. What a context answers is a matter of
the types that it is asked about: it reads no state, no collector among them, and it raises no
warning. -/
structure Context where
  /-- Whether the actual type, or an absent value, is accepted where the expected type is asked
  for. -/
  accepts : (expected : Ty) → (actual : Option Ty) → Bool
  /-- Whether classes are shown with their modules. -/
  qualifiedNames : Bool := false

namespace Ty

/-! ### The structural answer

The actual type is taken apart first and the expected type after it, so there are two recursions:
`admitsSingle` walks the expected type for an actual type that is no union, and `admits` walks the
actual type. Whether the two types are equal is asked of unions alone. -/

mutual

/-- Whether the first type accepts the second, which is no union: a class by inheritance, a null
type by being null too, a union by one of its members. It is not asked at any level whether the two
are equal: a class inherits from itself and a null type is null, so equal types are accepted
anyway. -/
def admitsSingle : (expected actual : Ty) → Bool
  | .union ⟨ms, _⟩, t | .dynamic ⟨ms, _⟩, t => someAdmitsSingle ms t
  | .cls c, t => match t with
    | .cls d => d.inherits c
    | _ => c.isObject
  | .none, t | .weakNone, t => t.isNull

def someAdmitsSingle : (expected : List Ty) → (actual : Ty) → Bool
  | [], _ => false
  | m :: ms, t => admitsSingle m t || someAdmitsSingle ms t

end

mutual

/-- Whether the expected type accepts the actual one. -/
def admits (expected : Ty) : (actual : Ty) → Bool
  | t@(.union ⟨ms, _⟩) | t@(.dynamic ⟨ms, _⟩) => expected == t || admitsAll expected ms
  | t => admitsSingle expected t

def admitsAll (expected : Ty) : (actual : List Ty) → Bool
  | [] => true
  | m :: ms => admits expected m && admitsAll expected ms

end

theorem someAdmitsSingle_eq_any (ms : List Ty) (t : Ty) :
    someAdmitsSingle ms t = ms.any (admitsSingle · t) := by
  induction ms with
  | nil => rfl
  | cons m ms ih => rw [someAdmitsSingle, ih, List.any_cons]

theorem admitsAll_eq_all (e : Ty) (ms : List Ty) : admitsAll e ms = ms.all e.admits := by
  induction ms with
  | nil => rfl
  | cons m ms ih => rw [admitsAll, ih, List.all_cons]

end Ty

namespace Context

/-- The context that decides by the make of the types. -/
def structural (qualifiedNames : Bool) : Context where
  accepts
    | _, none => true
    | expected, some actual => expected.admits actual
  qualifiedNames

/-- The structural context for callers that have no wishes of their own. -/
def plain : Context := structural false

end Context

end UnionTypes
