import UnionTypes.Failure
import UnionTypes.Ty.Basic
import UnionTypes.Warning.Collector

/-!
# Unions from lists of types

A union never stores a union, so a list of types is flattened into one: a class and the null value
are stored as they are, a union or a dynamic type gives its members and its weakness, and the weak
null type gives weakness alone. What is stored already is not stored again.
-/

namespace UnionTypes

/-- A computation that may raise warnings and may fail. What it warned of before it failed stays. -/
abbrev FallibleM := ExceptT Failure WarnM

namespace UnionOf

/-- Stores the type after the members, unless it is one of them. -/
def insertMember (ms : List Ty) (t : Ty) : List Ty :=
  if ms.any (· == t) then ms else ms ++ [t]

/-- Stores the types after the members, one by one. -/
def insertMembers (ms ts : List Ty) : List Ty :=
  ts.foldl insertMember ms

/-- Adds to a union what one more type contributes. -/
def absorb (u : Union) : Ty → Union
  | .weakNone => { u with weak := true }
  | .union v | .dynamic v =>
    { members := insertMembers u.members v.members, weak := u.weak || v.weak }
  | t => { u with members := insertMember u.members t }

/-- The union of the types, weak if the flag is set or a type makes it so. It may come out empty. -/
def flatten (ts : List Ty) (weak : Bool) : Union :=
  ts.foldl absorb { members := [], weak }

/-- A union of members that are known to be fit for storing. Warns if there are many. -/
def ofMembers (ms : List Ty) (weak : Bool) : WarnM Union := do
  warnIfLarge ms.length
  return { members := ms, weak }

/-- The union of the types, which fails if there is nothing to store. -/
def ofList (ts : List Ty) (weak : Bool) : FallibleM Union := do
  let u := flatten ts weak
  if u.members.isEmpty then
    throw .emptyUnion
  if u.weak && u.contains .none then
    warn { reason := .redundantNull }
  ofMembers u.members u.weak

/-- The dynamic type that is seen so far as one of the members of the union. -/
def toDynamic (u : Union) : Ty := .dynamic { u with weak := true }

end UnionOf

/-- The dynamic type that is seen so far as the given one. -/
def Ty.toDynamic : Ty → Ty
  | .union u => u.toDynamic
  | .dynamic u => .dynamic u
  | .weakNone => .dynamic { members := [.none], weak := true }
  | t => .dynamic { members := [t], weak := true }

end UnionTypes
