import UnionTypes.Proofs.Class.Member

/-!
# The first declaration in pre-order decides

What a class answers to a name is a matter of one attribute: the first of that name which a walk
through the inheritance tree comes to. `Class.FirstDeclares` says of an attribute that it is this
one, by what the walk has passed before it.

* **`Class.declaration?_eq_some_iff`** — it is the declaration that a search finds;
* **`Class.FirstDeclares.isSome_attribute?_iff`** — it is declared by the class itself just if the
  walk has passed no class;
* **`Class.resolve_first_declaration`** — so it decides the answer, and what comes behind it has no
  say, whatever access that would permit.
-/

namespace UnionTypes.Class

/-- The attribute is the first of the name in a walk through the inheritance tree. The walk has
passed some classes, none of which declares the name, and then some attributes of the class that
declares it, none of which has the name. -/
structure FirstDeclares (c : Class) (name : String) (passed : List Class) (owner : Class)
    (a : Attribute) : Prop where
  lineage_eq : ∃ rest, c.lineage = passed ++ owner :: rest
  not_declared : ∀ d ∈ passed, ∀ x ∈ d.attributes, x.name ≠ name
  attributes_eq : ∃ earlier later,
    owner.attributes = earlier ++ a :: later ∧ ∀ x ∈ earlier, x.name ≠ name
  name_eq : a.name = name

variable {c owner : Class} {name : String} {a : Attribute} {passed : List Class}

theorem attribute?_eq_some_iff :
    c.attribute? name = some a ↔ a.name = name ∧ ∃ earlier later,
      c.attributes = earlier ++ a :: later ∧ ∀ x ∈ earlier, x.name ≠ name := by
  rw [attribute?, List.find?_eq_some_iff_append]
  simp

theorem attribute?_eq_none_iff :
    c.attribute? name = none ↔ ∀ x ∈ c.attributes, x.name ≠ name := by
  rw [attribute?, List.find?_eq_none]
  simp

/-- The search for a declaration goes from class to class, and through each of them. -/
theorem declaration?_eq_findSome? (c : Class) (name : String) :
    c.declaration? name =
      c.lineage.findSome? fun d => (d.attribute? name).map fun a => (d, a) := by
  rw [declaration?, declarations, List.find?_flatMap]
  refine congrArg (List.findSome? · c.lineage) ?_
  funext d
  rw [List.find?_map]
  rfl

theorem declaration?_eq_some_iff :
    c.declaration? name = some (owner, a) ↔ ∃ passed, c.FirstDeclares name passed owner a := by
  rw [declaration?_eq_findSome?, List.findSome?_eq_some_iff]
  simp only [Option.map_eq_some_iff, Option.map_eq_none_iff, Prod.mk.injEq,
    attribute?_eq_none_iff]
  constructor
  · rintro ⟨passed, d, rest, hlineage, ⟨x, hx, rfl, rfl⟩, hpassed⟩
    obtain ⟨hname, hattributes⟩ := attribute?_eq_some_iff.mp hx
    exact ⟨passed, ⟨rest, hlineage⟩, hpassed, hattributes, hname⟩
  · rintro ⟨passed, ⟨rest, hlineage⟩, hpassed, hattributes, hname⟩
    have ha : owner.attribute? name = some a := attribute?_eq_some_iff.mpr ⟨hname, hattributes⟩
    exact ⟨passed, owner, rest, hlineage, ⟨a, ha, rfl, rfl⟩, hpassed⟩

theorem declaration?_eq_none_iff :
    c.declaration? name = none ↔ ∀ d ∈ c.lineage, ∀ x ∈ d.attributes, x.name ≠ name := by
  rw [declaration?_eq_findSome?, List.findSome?_eq_none_iff]
  simp only [Option.map_eq_none_iff, attribute?_eq_none_iff]

/-- The class itself stands first in its lineage, so it declares the name just if nothing is
passed. -/
theorem FirstDeclares.isSome_attribute?_iff (h : c.FirstDeclares name passed owner a) :
    (c.attribute? name).isSome = true ↔ passed = [] := by
  obtain ⟨rest, hlineage⟩ := h.lineage_eq
  rw [Class.lineage_eq] at hlineage
  cases passed with
  | nil =>
    obtain ⟨rfl, -⟩ := List.cons.inj hlineage
    rw [attribute?_eq_some_iff.mpr ⟨h.name_eq, h.attributes_eq⟩]
    exact iff_of_true rfl rfl
  | cons d passed =>
    obtain ⟨rfl, -⟩ := List.cons.inj hlineage
    rw [attribute?_eq_none_iff.mpr (h.not_declared c List.mem_cons_self)]
    simp

/-- **The first declaration in pre-order decides.** If it permits the access, the answer is this
attribute alone, with the low rate wherever a base declares it, at whatever depth; if it does not,
the access is impossible. Where nothing declares the name, the class cannot tell just if it has
dynamic attributes itself. For every name one of the two is the case. -/
theorem resolve_first_declaration (c : Class) (name : String) (access : Access) :
    (∀ passed owner a, c.FirstDeclares name passed owner a →
      c.resolve name access = some (if a.readonly = false ∨ access = .read then
        [{ member := { owner := owner.qualifiedName, name := a.name, kind := a.kind },
           rate := if passed = [] then .normal else .low }]
        else [])) ∧
    ((∀ d ∈ c.lineage, ∀ x ∈ d.attributes, x.name ≠ name) →
      c.resolve name access = if c.dynamicAttributes then none else some []) ∧
    ((∃ passed owner a, c.FirstDeclares name passed owner a) ∨
      ∀ d ∈ c.lineage, ∀ x ∈ d.attributes, x.name ≠ name) := by
  refine ⟨?declared, ?undeclared, ?either⟩
  case declared =>
    intro passed owner a hfirst
    have hpermits : a.permits access = true ↔ a.readonly = false ∨ access = .read := by
      simp [Attribute.permits]
    rw [resolve_eq, declaration?_eq_some_iff.mpr ⟨passed, hfirst⟩]
    simp only [hpermits, hfirst.isSome_attribute?_iff, member]
  case undeclared =>
    intro hnone
    rw [resolve_eq, declaration?_eq_none_iff.mpr hnone]
  case either =>
    cases hdecl : c.declaration? name with
    | none => exact Or.inr (declaration?_eq_none_iff.mp hdecl)
    | some d =>
      obtain ⟨passed, hfirst⟩ := declaration?_eq_some_iff.mp hdecl
      exact Or.inl ⟨passed, d.1, d.2, hfirst⟩

/-- Through its left base a class inherits a readonly attribute, and behind it two of the same name
that can be written: one in the same body, one in the right base. Writing stays impossible. The
right base has dynamic attributes, which tells nothing of the class itself. -/
theorem resolve_first_declaration_of_readonly :
    let top : Class := {
      name := "Top", moduleName := some "app", attributes := [.property "rank", .field "rank"] }
    let left : Class := { name := "Left", bases := [top] }
    let right : Class := { name := "Right", attributes := [.field "rank"], dynamicAttributes := true }
    let c : Class := { name := "Bottom", bases := [left, right] }
    c.FirstDeclares "rank" [c, left] top (.property "rank") ∧
    c.resolve "rank" .read = some [⟨⟨"app.Top", "rank", .property⟩, .low⟩] ∧
    c.resolve "rank" .write = some [] ∧
    c.resolve "size" .read = some [] ∧
    right.resolve "size" .read = none := by
  intro top left right c
  have hrank : c.FirstDeclares "rank" [c, left] top (.property "rank") := {
    lineage_eq := ⟨[right], rfl⟩
    not_declared := by decide
    attributes_eq := ⟨[], [.field "rank"], rfl, by decide⟩
    name_eq := rfl }
  refine ⟨hrank, ?_, ?_, ?_, ?_⟩
  · exact (resolve_first_declaration c "rank" .read).1 _ _ _ hrank
  · exact (resolve_first_declaration c "rank" .write).1 _ _ _ hrank
  · exact (resolve_first_declaration c "size" .read).2.1 (by decide)
  · exact (resolve_first_declaration right "size" .read).2.1 (by decide)

end UnionTypes.Class
