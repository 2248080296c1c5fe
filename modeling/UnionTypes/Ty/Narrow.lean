import UnionTypes.Ty.Merge
import UnionTypes.Ty.Name

/-!
# Narrowing types

Excluding a target from a type drops the members that the context accepts as the target, and merges
the rest back into one type. Without a target the null members are dropped, and with them the
possibility that the value is absent.
-/

namespace UnionTypes

/-- Whether a logical member goes when the target is excluded. -/
def Context.drops (ctx : Context) : (target member : Option Ty) → Bool
  | none, none => true
  | none, some t => t.isNull
  | some e, member => ctx.accepts e member

/-- The union without the target, or `none` if nothing is left. -/
def UnionOf.exclude (u : Union) (target : Option Ty) (ctx : Context) : WarnM (Option Ty) := do
  let rest := u.logicalMembers.filter fun m => !ctx.drops target m
  -- the union is shown only for a warning that is kept
  if rest.isEmpty && (← warningsKept) then
    warn { reason := .excludedAll u.size, typeName := some ((Ty.union u).name ctx) }
  -- if the absent value is left it comes first, and merging then weakens what follows
  mergeAll rest

/-- The question whether warnings are kept saves the work of showing the union, and no more. -/
theorem UnionOf.exclude_eq (u : Union) (target : Option Ty) (ctx : Context) :
    u.exclude target ctx = (do
      let rest := u.logicalMembers.filter fun m => !ctx.drops target m
      if rest.isEmpty then
        warn { reason := .excludedAll u.size, typeName := some ((Ty.union u).name ctx) }
      mergeAll rest) :=
  warningsKept_bind_warn _ _ _

/-- The type without the target, or `none` if nothing is left. A type that is no union is kept or
dropped as a whole. -/
def Ty.exclude (t : Ty) (target : Option Ty) (ctx : Context) : WarnM (Option Ty) :=
  match t.toUnion? with
  | some u => u.exclude target ctx
  | Option.none => return if ctx.drops target (some t) then Option.none else some t

/-- The union without the possibility that the value is absent. A weak union of one member becomes
that member; the null value, if stored, stays. -/
def UnionOf.withoutAbsence (u : Union) : Ty :=
  match u with
  | ⟨[m], true⟩ => m
  | ⟨ms, _⟩ => .union ⟨ms, false⟩

end UnionTypes
