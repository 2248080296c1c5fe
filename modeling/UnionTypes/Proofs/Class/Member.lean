import UnionTypes.Class.Member

/-!
# Search and completion meet in the declarations

A search stops at the first attribute of a name; completion goes through all attributes and keeps
note of the names that it has offered. Both walk the inheritance tree in the same order, and
`Class.declarations` is that walk as a list: every attribute with the class that declares it.

* **`Class.search_eq_declaration?`** — a search comes to the first declaration of the name, if
  that permits the access, and so does the answer (`Class.resolve_eq`);
* **`Class.collect_eq_foldl`** — completion offers the declarations one by one, and what is offered
  is the first declaration of its name (`Class.mem_foldl_offerMember`);
* **`Class.mem_complete_iff`** — so completion offers just what reading the name finds.
-/

namespace UnionTypes.Class

/-! ## The declarations of a class -/

/-- The attributes that the class and all it inherits declare, each with its class, in the order of
the lineage. -/
def declarations (c : Class) : List (Class × Attribute) :=
  c.lineage.flatMap fun d => d.attributes.map fun a => (d, a)

theorem declarations_eq (c : Class) :
    c.declarations = c.attributes.map (fun a => (c, a)) ++ c.bases.flatMap declarations := by
  unfold declarations
  rw [lineage_eq, List.flatMap_cons, lineages_eq_flatMap, List.flatMap_assoc]

/-- The declaration that counts for a name: the first one. -/
def declaration? (c : Class) (name : String) : Option (Class × Attribute) :=
  c.declarations.find? (·.2.name == name)

theorem declaration?_eq (c : Class) (name : String) :
    c.declaration? name = ((c.attribute? name).map fun a => (c, a)).or
      ((c.bases.flatMap declarations).find? (·.2.name == name)) := by
  rw [declaration?, declarations_eq, List.find?_append, List.find?_map]
  rfl

/-! ## Search -/

/-- What comes of a search that has found this declaration. -/
def Search.ofDeclaration (access : Access) (rate : Rate) : Option (Class × Attribute) → Search
  | some (d, a) => if a.permits access then .found ⟨d.member a, rate⟩ else .blocked
  | none => .missing

theorem searchBases_eq_of_forall {name : String} {access : Access} {bs : List Class}
    (h : ∀ b ∈ bs, b.search name access .low = .ofDeclaration access .low (b.declaration? name)) :
    searchBases name access bs =
      .ofDeclaration access .low ((bs.flatMap declarations).find? (·.2.name == name)) := by
  induction bs with
  | nil => rfl
  | cons b bs ih =>
    rw [searchBases, h b List.mem_cons_self, ih fun d hd => h d (List.mem_cons_of_mem b hd),
      List.flatMap_cons, List.find?_append]
    show _ = Search.ofDeclaration access .low ((b.declaration? name).or _)
    cases b.declaration? name with
    | none => rfl
    | some d =>
      -- a declaration ends the search, whether it permits the access or not
      rw [Option.some_or, Search.ofDeclaration]
      cases d.2.permits access <;> rfl

/-- A search comes to the first declaration of the name. The rate is the given one only if the class
itself declares the name. Induction on the inheritance tree. -/
theorem search_eq_declaration? (name : String) (access : Access) (rate : Rate) (c : Class) :
    c.search name access rate =
      .ofDeclaration access (if (c.attribute? name).isSome then rate else .low)
        (c.declaration? name) := by
  induction c using induction_on_bases generalizing rate with
  | step c ih =>
    rw [search_eq, declaration?_eq]
    cases c.attribute? name with
    | some a => rfl
    | none => exact searchBases_eq_of_forall fun b hb => by rw [ih b hb .low, ite_self]

/-- The first declaration of the name decides what the class answers. -/
theorem resolve_eq (c : Class) (name : String) (access : Access) :
    c.resolve name access =
      match c.declaration? name with
      | some d =>
        let rate := if (c.attribute? name).isSome then .normal else .low
        some (if d.2.permits access then [⟨d.1.member d.2, rate⟩] else [])
      | none => if c.dynamicAttributes then none else some [] := by
  rw [resolve, search_eq_declaration?]
  cases c.declaration? name with
  | none => rfl
  | some d => cases hpermits : d.2.permits access <;> simp [Search.ofDeclaration, hpermits]

/-- Whatever is declared can be read. -/
theorem resolve_read (c : Class) (name : String) :
    (c.resolve name .read).getD [] = ((c.declaration? name).map fun d =>
      (⟨d.1.member d.2, if (c.attribute? name).isSome then .normal else .low⟩ : Resolution)).toList := by
  rw [resolve_eq]
  cases c.declaration? name with
  | none => cases c.dynamicAttributes <;> rfl
  | some d => simp

/-! ## Completion -/

/-- Offers one more member, if its name starts with the stem and is new. -/
def offerMember (stem : String) (offered : List Member) (m : Member) : List Member :=
  if startsWith stem m.name && !offered.any (·.name == m.name) then offered ++ [m] else offered

/-- The declarations as members of the classes that they come from. -/
def declared (c : Class) : List Member := c.declarations.map fun d => d.1.member d.2

theorem declared_eq (c : Class) :
    c.declared = c.attributes.map c.member ++ c.bases.flatMap declared := by
  unfold declared
  rw [declarations_eq, List.map_append, List.map_map, List.map_flatMap]
  rfl

theorem find?_declared (c : Class) (name : String) :
    c.declared.find? (·.name == name) = (c.declaration? name).map fun d => d.1.member d.2 := by
  rw [declared, List.find?_map]
  rfl

theorem offer_eq_foldl (stem : String) (c : Class) (offered : List Member) :
    c.offer stem offered = (c.attributes.map c.member).foldl (offerMember stem) offered := by
  rw [List.foldl_map]
  rfl

theorem collectBases_eq_foldl_of_forall {stem : String} {bs : List Class}
    (h : ∀ b ∈ bs, ∀ offered, collect stem b offered = b.declared.foldl (offerMember stem) offered)
    (offered : List Member) :
    collectBases stem bs offered = (bs.flatMap declared).foldl (offerMember stem) offered := by
  induction bs generalizing offered with
  | nil => rfl
  | cons b bs ih =>
    rw [collectBases, h b List.mem_cons_self, ih fun d hd => h d (List.mem_cons_of_mem b hd),
      List.flatMap_cons, List.foldl_append]

theorem collect_eq_foldl (stem : String) (c : Class) (offered : List Member) :
    collect stem c offered = c.declared.foldl (offerMember stem) offered := by
  induction c using induction_on_bases generalizing offered with
  | step c ih =>
    rw [collect_eq, collectBases_eq_foldl_of_forall ih, offer_eq_foldl, declared_eq,
      List.foldl_append]

/-- What is offered in the end was offered before, or it is the first of its name and the name was
not offered before. -/
theorem mem_foldl_offerMember {stem : String} {ms offered : List Member} {m : Member} :
    m ∈ ms.foldl (offerMember stem) offered ↔ m ∈ offered ∨
      startsWith stem m.name = true ∧ (∀ n ∈ offered, n.name ≠ m.name) ∧
        ms.find? (·.name == m.name) = some m := by
  induction ms generalizing offered with
  | nil => simp
  | cons a ms ih =>
    rw [List.foldl_cons, ih, offerMember]
    by_cases hname : a.name = m.name
    · have hfind : (a :: ms).find? (·.name == m.name) = some a :=
        List.find?_cons_of_pos (by simpa using hname)
      rw [hfind]
      split
      next hoffer =>
        obtain ⟨hstem, hnew⟩ : startsWith stem m.name = true ∧ ∀ n ∈ offered, n.name ≠ m.name := by
          simpa [hname] using hoffer
        have hlast : ¬ ∀ n ∈ offered ++ [a], n.name ≠ m.name := fun h => h a (by simp) hname
        rw [and_iff_right hnew, List.mem_append, List.mem_singleton, Option.some_inj,
          @eq_comm _ a m]
        simp only [hlast, hstem, false_and, and_false, or_false, true_and]
      next hoffer =>
        -- neither `a` nor anything behind it can be offered under this name
        have hstale : ¬ (startsWith stem m.name = true ∧ ∀ n ∈ offered, n.name ≠ m.name) := by
          rintro ⟨hstem, hnew⟩
          exact hoffer (by simpa [hname, hstem] using hnew)
        simp only [← and_assoc, hstale, false_and]
    · have hfind : (a :: ms).find? (·.name == m.name) = ms.find? (·.name == m.name) :=
        List.find?_cons_of_neg (by simpa using hname)
      have hne : m ≠ a := fun h => hname (h ▸ rfl)
      rw [hfind]
      split
      next => simp [hname, hne, or_imp, forall_and]
      next => rfl

theorem nodup_foldl_offerMember {stem : String} {ms offered : List Member}
    (h : (offered.map (·.name)).Nodup) :
    ((ms.foldl (offerMember stem) offered).map (·.name)).Nodup := by
  induction ms generalizing offered with
  | nil => exact h
  | cons a ms ih =>
    rw [List.foldl_cons]
    refine ih ?_
    unfold offerMember
    split
    next hoffer =>
      obtain ⟨-, hnew⟩ : startsWith stem a.name = true ∧ ∀ n ∈ offered, n.name ≠ a.name := by
        simpa using hoffer
      rw [List.map_append, List.nodup_append]
      refine ⟨h, by simp, ?_⟩
      simpa using hnew
    next => exact h

theorem nodup_complete (c : Class) (stem : String) : ((c.complete stem).map (·.name)).Nodup := by
  rw [complete, collect_eq_foldl]
  exact nodup_foldl_offerMember (by simp)

theorem mem_complete_iff (c : Class) (stem : String) (m : Member) :
    m ∈ c.complete stem ↔
      startsWith stem m.name = true ∧ ∃ r ∈ (c.resolve m.name .read).getD [], r.member = m := by
  have hread : (∃ r ∈ (c.resolve m.name .read).getD [], r.member = m) ↔
      c.declared.find? (·.name == m.name) = some m := by
    rw [resolve_read, find?_declared]
    cases c.declaration? m.name with
    | none => simp
    | some d => simp
  rw [complete, collect_eq_foldl, mem_foldl_offerMember, hread]
  simp

end UnionTypes.Class
