import UnionTypes.Ty.Assignable

/-!
# How types are shown

A union is shown by its members in stored order, and a weak union begins with the word for what is
not known. A dynamic type hides that possibility: it is shown by its members alone.
-/

namespace UnionTypes.Ty

/-- Both null types are shown so. -/
def nullName : String := "None"

/-- The possibility that the value is absent is shown so. -/
def unknownName : String := "unknown"

/-- Stands between the members of a union. -/
def separator : String := " | "

mutual

/-- How the type is shown in the given context. -/
def name (ctx : Context) : Ty → String
  | .cls c => c.shownName ctx.qualifiedNames
  | .none | .weakNone => nullName
  | .union ⟨ms, w⟩ => separator.intercalate ((if w then [unknownName] else []) ++ names ctx ms)
  | .dynamic ⟨ms, _⟩ => if ms.isEmpty then unknownName else separator.intercalate (names ctx ms)

def names (ctx : Context) : List Ty → List String
  | [] => []
  | m :: ms => name ctx m :: names ctx ms

end

theorem names_eq_map (ctx : Context) (ms : List Ty) : names ctx ms = ms.map (name ctx) := by
  induction ms with
  | nil => rfl
  | cons m ms ih => rw [names, ih, List.map_cons]

instance : ToString Ty where
  toString := name .plain

end UnionTypes.Ty
