import UnionTypes.Class.Basic

/-!
# Lineage and inheritance

The lineage of a class is its inheritance tree, read in depth-first pre-order: the class, then each
base from left to right with everything that base inherits. A class inherits from the members of
its lineage and from the top class.
-/

namespace UnionTypes.Class

/-- A class holds its bases inside it, so no class is among the classes that it inherits from. -/
theorem sizeOf_lt_of_mem_bases {b c : Class} (hb : b ∈ c.bases) : sizeOf b < sizeOf c := by
  obtain ⟨_, _, _, _, _, _, bases⟩ := c
  have hmem : sizeOf b < sizeOf bases := List.sizeOf_lt_of_mem hb
  simp only [Class.mk.sizeOf_spec]
  omega

/-- What holds of a class as soon as it holds of its bases holds of every class. -/
@[elab_as_elim]
theorem induction_on_bases {motive : Class → Prop}
    (step : ∀ c : Class, (∀ b ∈ c.bases, motive b) → motive c) (c : Class) : motive c := by
  refine step c fun b hb => ?_
  have hlt : sizeOf b < sizeOf c := sizeOf_lt_of_mem_bases hb
  exact induction_on_bases step b
termination_by sizeOf c

mutual

/-- The class and all that it inherits, in depth-first pre-order. A class reached along two paths
is listed twice. -/
def lineage : Class → List Class
  | c@⟨_, _, _, _, _, _, bases⟩ => c :: lineages bases

/-- The lineages of the classes of a list, one after the other. -/
def lineages : List Class → List Class
  | [] => []
  | c :: cs => lineage c ++ lineages cs

end

theorem lineage_eq (c : Class) : c.lineage = c :: lineages c.bases := by
  cases c; rw [lineage]

theorem lineages_eq_flatMap (cs : List Class) : lineages cs = cs.flatMap lineage := by
  induction cs with
  | nil => rfl
  | cons c cs ih => rw [lineages, ih, List.flatMap_cons]

theorem self_mem_lineage (c : Class) : c ∈ c.lineage := by
  simp [lineage_eq]

mutual

/-- Whether the first class is the second, or inherits from it through some base, or the second is
the top class. -/
def inherits : Class → Class → Bool
  | a@⟨_, _, _, _, _, _, bases⟩, c => a == c || c.isObject || anyInherits bases c

/-- Whether some class of the list inherits from the given one. -/
def anyInherits : List Class → Class → Bool
  | [], _ => false
  | b :: bs, c => inherits b c || anyInherits bs c

end

theorem inherits_eq (a c : Class) :
    a.inherits c = (a == c || c.isObject || anyInherits a.bases c) := by
  cases a; rw [inherits]

theorem anyInherits_eq_any (bs : List Class) (c : Class) :
    anyInherits bs c = bs.any (inherits · c) := by
  induction bs with
  | nil => rfl
  | cons b bs ih => rw [anyInherits, ih, List.any_cons]

end UnionTypes.Class
