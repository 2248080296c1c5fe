import Mathlib.Data.List.Perm.Subperm
import UnionTypes.Ty.Basic

/-!
# Equality of types

`==` on types is coarser than identity, but only at a union: a type that is no union equals nothing
but itself. Unions store no unions, so inside a well-formed union `==` is identity again, and the
questions that the operations ask with it become plain ones:

* `UnionOf.WellFormed.nodup` — the stored members are different things;
* `UnionOf.WellFormed.contains_iff`, `includes_iff` — to be stored is to be in the list;
* `UnionOf.beq_iff` — two unions are equal when they are equally weak and have the same members.
-/

namespace UnionTypes

namespace Ty

/-- The two kinds of types that have a union inside. -/
theorem toUnion?_eq_some_iff {t : Ty} {u : Union} :
    t.toUnion? = some u ↔ t = .union u ∨ t = .dynamic u := by
  cases t <;> simp [toUnion?]

/-! ### Types that are no unions -/

/-- A type that is no union equals nothing but itself. -/
theorem beq_iff_eq_of_left {s t : Ty} (hs : s.toUnion? = Option.none) :
    (s == t) = true ↔ s = t := by
  rw [beq_eq_same]
  cases s with
  | cls c => cases t <;> simp [same]
  | none => cases t <;> simp [same]
  | weakNone => cases t <;> simp [same]
  | union u => simp [toUnion?] at hs
  | dynamic u => simp [toUnion?] at hs

/-- Nothing but itself equals a type that is no union. -/
theorem beq_iff_eq_of_right {s t : Ty} (ht : t.toUnion? = Option.none) :
    (s == t) = true ↔ s = t := by
  rw [beq_eq_same]
  cases s with
  | cls c => cases t <;> simp [same]
  | none => cases t <;> simp [same]
  | weakNone => cases t <;> simp [same]
  | union u =>
    have hne : Ty.union u ≠ t := by rintro rfl; simp [toUnion?] at ht
    simp [same, ht, hne]
  | dynamic u =>
    have hne : Ty.dynamic u ≠ t := by rintro rfl; simp [toUnion?] at ht
    simp [same, ht, hne]

/-- Types with unions inside are compared by these unions. -/
theorem beq_eq_of_toUnion? {s t : Ty} {u v : Union} (hs : s.toUnion? = some u)
    (ht : t.toUnion? = some v) : (s == t) = (u == v) := by
  rw [beq_eq_same]
  rcases toUnion?_eq_some_iff.mp hs with rfl | rfl
  · simp only [same, ht]
    rfl
  · simp only [same, ht]
    rfl

theorem Storable.toUnion?_eq_none {t : Ty} (h : t.Storable) : t.toUnion? = Option.none := by
  cases t <;> first | rfl | exact h.elim

end Ty

/-! ### Well-formed unions -/

namespace UnionOf

variable {u v : Union}

theorem WellFormed.nodup (hu : u.WellFormed) : u.members.Nodup := by
  refine hu.distinct.imp_of_mem ?_
  intro s t hs _ hne heq
  have hst : (s == t) = true := (Ty.beq_iff_eq_of_left (hu.storable s hs).toUnion?_eq_none).mpr heq
  rw [hst] at hne
  exact Bool.noConfusion hne

theorem WellFormed.contains_iff (hu : u.WellFormed) {t : Ty} :
    u.contains t = true ↔ t ∈ u.members := by
  simp only [contains, List.any_eq_true]
  constructor
  · rintro ⟨m, hm, hmt⟩
    rwa [← (Ty.beq_iff_eq_of_left (hu.storable m hm).toUnion?_eq_none).mp hmt]
  · intro ht
    exact ⟨t, ht, (Ty.beq_iff_eq_of_left (hu.storable t ht).toUnion?_eq_none).mpr rfl⟩

theorem WellFormed.includes_iff (hu : u.WellFormed) :
    u.includes v = true ↔ v.members ⊆ u.members := by
  simp only [includes, List.all_eq_true, hu.contains_iff]
  rfl

/-- Each type of the list is among the members of a well-formed union just if the members hold
the whole list. -/
theorem WellFormed.allAmong_iff (hv : v.WellFormed) (ms : List Ty) :
    Ty.allAmong ms v.members = true ↔ ms ⊆ v.members := by
  simp only [Ty.allAmong_eq_all, List.all_eq_true, List.any_eq_true]
  constructor
  · intro h m hm
    obtain ⟨n, hn, hmn⟩ := h m hm
    rwa [(Ty.beq_iff_eq_of_right (hv.storable n hn).toUnion?_eq_none).mp hmn]
  · intro h m hm
    exact ⟨m, h hm, (Ty.beq_iff_eq_of_left (hv.storable m (h hm)).toUnion?_eq_none).mpr rfl⟩

/-- Well-formed unions are equal when they are equally weak and have the same members. The code
compares the lengths and looks one way only; that is enough because nothing is stored twice. -/
theorem beq_iff (hu : u.WellFormed) (hv : v.WellFormed) :
    (u == v) = true ↔ u.weak = v.weak ∧ ∀ t, t ∈ u.members ↔ t ∈ v.members := by
  have hdef : (u == v) = (u.weak == v.weak && u.members.length == v.members.length &&
      Ty.allAmong u.members v.members) := rfl
  rw [hdef]
  simp only [Bool.and_eq_true, beq_iff_eq, hv.allAmong_iff, and_assoc]
  refine and_congr_right fun _ => ?_
  constructor
  · rintro ⟨hlen, hsub⟩
    have hperm : u.members.Perm v.members :=
      (hu.nodup.subperm hsub).perm_of_length_le (by omega)
    exact fun t => hperm.mem_iff
  · intro hmem
    have hperm : u.members.Perm v.members :=
      (List.perm_ext_iff_of_nodup hu.nodup hv.nodup).mpr hmem
    exact ⟨hperm.length_eq, hperm.subset⟩

end UnionOf

end UnionTypes
