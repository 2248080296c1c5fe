import UnionTypes.Proofs.Ty.Flatten
import UnionTypes.Ty.Merge

/-!
# What a type stores

Operations on types treat a type that is no union like a union of one member. `Ty.contents` is that
union: a class or the null value stores itself, and the weak null type stores the null value and is
weak. Together with `Ty.isUnion`, which tells `int` from a union of `int` alone, it determines a
well-formed type up to equality (`Ty.beq_iff`).
-/

namespace UnionTypes

namespace Ty

/-- Whether there is a union inside the type. -/
def isUnion (t : Ty) : Bool := t.toUnion?.isSome

/-- Whether the type is a dynamic one. -/
def isDynamic : Ty → Bool
  | .dynamic _ => true
  | _ => false

/-- What the type stores, as a union. -/
def contents : Ty → Union
  | .cls c => { members := [.cls c], weak := false }
  | .none => { members := [.none], weak := false }
  | .weakNone => { members := [.none], weak := true }
  | .union u | .dynamic u => u

theorem isUnion_eq_false_iff {t : Ty} : t.isUnion = false ↔ t.toUnion? = Option.none := by
  simp [isUnion]

theorem isUnion_of_toUnion? {t : Ty} {u : Union} (h : t.toUnion? = some u) : t.isUnion = true := by
  simp [isUnion, h]

theorem contents_of_toUnion? {t : Ty} {u : Union} (h : t.toUnion? = some u) : t.contents = u := by
  cases t <;> simp_all [toUnion?, contents]

/-- A type with a union inside that is not dynamic is that union. -/
theorem eq_union_contents {t : Ty} (h : t.isUnion = true) (hd : t.isDynamic = false) :
    t = .union t.contents := by
  cases t <;> simp_all [isUnion, toUnion?, isDynamic, contents]

theorem contents_of_isUnion_eq_false {t : Ty} (h : t.isUnion = false) :
    t.contents = { members := [t.stored], weak := t.isWeakNone } := by
  cases t with
  | cls c => rfl
  | none => rfl
  | weakNone => rfl
  | union u => simp [isUnion, toUnion?] at h
  | dynamic u => simp [isUnion, toUnion?] at h

theorem contents_of_storable {t : Ty} (h : t.Storable) :
    t.contents = { members := [t], weak := false } := by
  cases t <;> first | rfl | exact h.elim

theorem Storable.isUnion_eq_false {t : Ty} (h : t.Storable) : t.isUnion = false :=
  isUnion_eq_false_iff.mpr h.toUnion?_eq_none

theorem Storable.isDynamic_eq_false {t : Ty} (h : t.Storable) : t.isDynamic = false := by
  cases t <;> first | rfl | exact h.elim

theorem Storable.wellFormed {t : Ty} (h : t.Storable) : t.WellFormed := by
  cases t <;> trivial

theorem Storable.stored_eq {t : Ty} (h : t.Storable) : t.stored = t := by
  cases t <;> first | rfl | exact h.elim

theorem storable_stored {t : Ty} (h : t.isUnion = false) : t.stored.Storable := by
  cases t with
  | cls c => trivial
  | none => trivial
  | weakNone => trivial
  | union u => simp [isUnion, toUnion?] at h
  | dynamic u => simp [isUnion, toUnion?] at h

theorem stored_eq_none_of_isWeakNone {t : Ty} (h : t.isWeakNone = true) : t.stored = .none := by
  cases t <;> simp_all [isWeakNone, stored]

theorem WellFormed.contents {t : Ty} (ht : t.WellFormed) : t.contents.WellFormed := by
  cases t with
  | cls c => exact UnionOf.wellFormed_singleton (t := .cls c) trivial false
  | none => exact UnionOf.wellFormed_singleton (t := .none) trivial false
  | weakNone => exact UnionOf.wellFormed_singleton (t := .none) trivial true
  | union u => exact ht
  | dynamic u => exact ht.1

theorem WellFormed.of_toUnion? {t : Ty} (ht : t.WellFormed) {u : Union} (h : t.toUnion? = some u) :
    u.WellFormed :=
  contents_of_toUnion? h ▸ ht.contents

theorem eq_of_contents_eq {s t : Ty} (hs : s.isUnion = false) (ht : t.isUnion = false)
    (h : s.contents = t.contents) : s = t := by
  cases s <;> cases t <;> simp_all [isUnion, toUnion?, Ty.contents]

/-- Well-formed types are equal when both are unions or neither is, and they are equally weak and
store the same members. -/
theorem beq_iff {s t : Ty} (hs : s.WellFormed) (ht : t.WellFormed) :
    (s == t) = true ↔ s.isUnion = t.isUnion ∧ s.contents.weak = t.contents.weak ∧
      ∀ m, m ∈ s.contents.members ↔ m ∈ t.contents.members := by
  cases hsu : s.toUnion? with
  | some u =>
    cases htv : t.toUnion? with
    | some v =>
      have hu : u.WellFormed := hs.of_toUnion? hsu
      have hv : v.WellFormed := ht.of_toUnion? htv
      rw [beq_eq_of_toUnion? hsu htv, UnionOf.beq_iff hu hv, contents_of_toUnion? hsu,
        contents_of_toUnion? htv, isUnion_of_toUnion? hsu, isUnion_of_toUnion? htv]
      simp
    | none =>
      have hne : s ≠ t := by rintro rfl; rw [hsu] at htv; cases htv
      simp [beq_iff_eq_of_right htv, hne, isUnion, hsu, htv]
  | none =>
    rw [beq_iff_eq_of_left hsu]
    constructor
    · rintro rfl
      exact ⟨rfl, rfl, fun _ => Iff.rfl⟩
    · rintro ⟨hunion, hweak, hmem⟩
      have hs1 : s.isUnion = false := isUnion_eq_false_iff.mpr hsu
      have ht1 : t.isUnion = false := hunion ▸ hs1
      rw [contents_of_isUnion_eq_false hs1, contents_of_isUnion_eq_false ht1] at hmem hweak
      have hstored : s.stored = t.stored := by simpa using hmem s.stored
      refine eq_of_contents_eq hs1 ht1 ?_
      rw [contents_of_isUnion_eq_false hs1, contents_of_isUnion_eq_false ht1, hstored]
      exact congrArg (UnionOf.mk [t.stored]) hweak

end Ty

namespace UnionOf

/-- A list is flattened into a weak union if the flag says so or one of the types is weak. -/
theorem weak_flatten (ts : List Ty) (weak : Bool) :
    (flatten ts weak).weak = (weak || ts.any (·.contents.weak)) := by
  have hfold : ∀ u : Union, (ts.foldl absorb u).weak = (u.weak || ts.any (·.contents.weak)) := by
    induction ts with
    | nil => simp
    | cons t ts ih =>
      intro u
      have habsorb : (absorb u t).weak = (u.weak || t.contents.weak) := by
        cases t <;> simp [absorb, Ty.contents]
      rw [List.foldl_cons, ih, habsorb, List.any_cons, Bool.or_assoc]
  exact hfold { members := [], weak }

end UnionOf

end UnionTypes
