import UnionTypes.Ty.Flatten

/-!
# Merging types

The join of two types admits what either admits. It never nests unions, and it builds a new list of
members only where neither operand already holds the other's, so that equal merges keep their order
and large unions are reported once.

An operand may be absent when nothing is known of it. That is no neutral element: absence weakens
the other operand. Two absent operands stay absent.
-/

namespace UnionTypes

namespace Ty

/-- The type, admitting besides that the value is absent. -/
def weaken : Ty → Ty
  | .union u => .union { u with weak := true }
  | .dynamic u => .dynamic u
  | .none | .weakNone => .weakNone
  | .cls c => .union { members := [.cls c], weak := true }

def isWeakNone : Ty → Bool
  | .weakNone => true
  | _ => false

/-- The form in which the type is stored: the null value stands for the weak null type. -/
def stored : Ty → Ty
  | .weakNone => .none
  | t => t

/-- Joins two different types, neither of them a union. -/
def joinSingles (a b : Ty) : WarnM Ty := do
  if a.isNull && b.isNull then
    -- one of them is the weak null type, and it already stands for both
    return .weakNone
  return .union (← UnionOf.ofMembers [a.stored, b.stored] (a.isWeakNone || b.isWeakNone))

/-- Joins a type that is a union, given with its union, and one that is not. The latter comes first
if it was the left operand. -/
def joinSingle (whole : Ty) (u : Union) (t : Ty) (first : Bool) : WarnM Ty := do
  if u.contains t then
    return whole
  let weak := u.weak || t.isWeakNone
  if u.contains t.stored then
    -- the weak null type meets a stored null value, and only makes the union weak
    return .union { u with weak }
  let members := if first then t.stored :: u.members else u.members ++ [t.stored]
  return .union (← UnionOf.ofMembers members weak)

/-- Joins two unions. Where one holds the other its list of members is kept, the left one if each
holds the other. -/
def joinUnions (u v : Union) : WarnM Union := do
  let weak := u.weak || v.weak
  if u.size < v.size && v.includes u then
    return { v with weak }
  if u.includes v then
    return { u with weak }
  UnionOf.ofMembers (UnionOf.insertMembers u.members v.members) weak

/-- The type that admits what either type admits. Equal types give the left one unchanged. -/
def join (a b : Ty) : WarnM Ty := do
  -- the left operand is kept as it is, a dynamic type included
  if a == b then
    return a
  match a.toUnion?, b.toUnion? with
  | some u, some v => return .union (← joinUnions u v)
  | some u, Option.none => joinSingle a u b false
  | Option.none, some v => joinSingle b v a true
  | Option.none, Option.none => joinSingles a b

end Ty

/-- Merges two types of which either may be absent. -/
def merge : Option Ty → Option Ty → WarnM (Option Ty)
  | none, none => return none
  | some t, none | none, some t => return some t.weaken
  | some a, some b => return some (← a.join b)

/-- Merges the types from left to right. Nothing comes of no types, and a single one is left as it
is. -/
def mergeAll : List (Option Ty) → WarnM (Option Ty)
  | [] => return none
  | t :: ts => ts.foldlM merge t

def weaken (t : Option Ty) : Option Ty := t.map Ty.weaken

end UnionTypes
