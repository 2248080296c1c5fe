import UnionTypes.Proofs.Ty.Merge

/-!
# When a join checks a size

A join has four branches and three shortcuts, and it checks a size in three places. All of it comes
to one rule (**`Ty.after_join`**): the size of the result is checked, once, just if neither operand
stores all that the other stores. Two unions of which one holds the other are `UnionOf.nested`; each
branch tests for that in its own way, and has a lemma that leads its tests back to it.
-/

namespace UnionTypes

namespace UnionOf

variable {u v : Union}

/-! ## Sizes and inclusion -/

theorem Fit.includes_iff (hu : Fit u.members) :
    u.includes v = true ↔ v.members ⊆ u.members := by
  rcases eq_or_ne u.members [] with hempty | hne
  · cases hv : v.members <;> simp [includes, contains, hempty, hv]
  · exact (hu.wellFormed hne).includes_iff

theorem Fit.size_le_of_subset (hu : Fit u.members) (h : u.members ⊆ v.members) :
    u.size ≤ v.size :=
  (hu.nodup.subperm h).length_le

/-- What another union holds is smaller than it just if it does not hold the other in turn. -/
theorem Fit.size_lt_iff_of_subset (hu : Fit u.members) (hv : Fit v.members)
    (hsub : u.members ⊆ v.members) : u.size < v.size ↔ u.includes v = false := by
  constructor
  · intro hlt
    refine Bool.eq_false_iff.mpr fun h => ?_
    have hle := hv.size_le_of_subset (hu.includes_iff.mp h)
    omega
  · intro h
    by_contra hnot
    have hperm := (hu.nodup.subperm hsub).perm_of_length_le (Nat.le_of_not_lt hnot)
    rw [hu.includes_iff.mpr hperm.symm.subset] at h
    cases h

/-- A union holds its merge with another just if it holds the other. -/
theorem includes_merged (hu : u.WellFormed) (hv : v.WellFormed) :
    u.includes (u.merged v) = u.includes v := by
  rw [Bool.eq_iff_iff, hu.includes_iff, hu.includes_iff]
  constructor
  · intro h t ht
    exact h ((mem_merged hu hv).mpr (Or.inr ht))
  · intro h t ht
    exact ((mem_merged hu hv).mp ht).elim id (h ·)

/-- A merge is no larger than an operand that holds the other. -/
theorem size_merged_le_of_includes (hu : u.WellFormed) (hv : v.WellFormed)
    (h : v.includes u = true) : (u.merged v).size ≤ v.size := by
  refine (hu.merged hv).fit.size_le_of_subset fun m hm => ?_
  rcases (mem_merged hu hv).mp hm with hmu | hmv
  · exact hv.includes_iff.mp h hmu
  · exact hmv

/-! ## Nested unions -/

/-- Whether one of the two unions holds the other, so that their merge has its members already. -/
def nested (u v : Union) : Bool := u.includes v || v.includes u

theorem nested_comm (u v : Union) : u.nested v = v.nested u := Bool.or_comm _ _

theorem nested_of_same (hu : u.WellFormed) (h : ∀ t, t ∈ u.members ↔ t ∈ v.members) :
    u.nested v = true := by
  have hincl : u.includes v = true := hu.includes_iff.mpr fun t ht => (h t).mpr ht
  simp [nested, hincl]

/-- What stores one thing is nested with a union just if the union stores it. -/
theorem nested_contents (hu : u.WellFormed) {t : Ty} (ht : t.isUnion = false) :
    u.nested t.contents = u.contains t.stored := by
  have hone : t.contents.WellFormed := by
    rw [Ty.contents_of_isUnion_eq_false ht]
    exact wellFormed_singleton (Ty.storable_stored ht) _
  have hincl : u.includes t.contents = u.contains t.stored := by
    simp [Ty.contents_of_isUnion_eq_false ht, includes]
  -- if the one thing holds the union, it is all that the union stores
  have hback : t.contents.includes u = true → u.contains t.stored = true := by
    intro h
    obtain ⟨m, hm⟩ := List.exists_mem_of_ne_nil _ hu.members_ne_nil
    have hmt : m ∈ t.contents.members := hone.includes_iff.mp h hm
    rw [Ty.contents_of_isUnion_eq_false ht, List.mem_singleton] at hmt
    exact hu.contains_iff.mpr (hmt ▸ hm)
  rw [nested, hincl, Bool.or_eq_left_iff_imp]
  exact hback

/-- Of two unions that are not nested neither is left as it is when they are joined. -/
theorem nested_eq_false_iff (hu : u.WellFormed) (hv : v.WellFormed) :
    u.nested v = false ↔ (u.size < v.size && v.includes u) = false ∧ u.includes v = false := by
  have hshorter : v.includes u = true → u.includes v = false → u.size < v.size := fun hvu huv =>
    (hu.fit.size_lt_iff_of_subset hv.fit (hv.includes_iff.mp hvu)).mpr huv
  rw [nested, Bool.or_eq_false_iff, and_comm, and_congr_left_iff]
  intro huv
  rw [Bool.and_eq_false_iff, decide_eq_false_iff_not]
  constructor
  · exact Or.inr
  · rintro (hlen | hvu)
    · exact Bool.eq_false_iff.mpr fun hvu => hlen (hshorter hvu huv)
    · exact hvu

end UnionOf

/-! ## The branches of a join -/

namespace Ty

variable {a b t : Ty} {u v : Union}

theorem after_joinUnions (hu : u.WellFormed) (hv : v.WellFormed) (k : Collector) :
    (joinUnions u v).after k = if u.nested v then k else k.checkSize (u.merged v).size := by
  unfold joinUnions
  cases hnested : u.nested v with
  | true =>
    have hkept : ¬ ((u.size < v.size && v.includes u) = false ∧ u.includes v = false) := by
      rw [← UnionOf.nested_eq_false_iff hu hv, hnested]
      simp
    cases hlt : u.size < v.size && v.includes u with
    | true => simp
    | false =>
      cases hincl : u.includes v with
      | true => simp
      | false => exact absurd ⟨hlt, hincl⟩ hkept
  | false =>
    obtain ⟨hlt, hincl⟩ := (UnionOf.nested_eq_false_iff hu hv).mp hnested
    have hmembers : (u.merged v).members = UnionOf.insertMembers u.members v.members := by
      rw [UnionOf.insertMembers_eq hv.fit]
      simp [UnionOf.merged, hlt, hincl, UnionOf.contains]
    have hsize : (u.merged v).size = (UnionOf.insertMembers u.members v.members).length :=
      congrArg List.length hmembers
    simp [hlt, hincl, hsize]

theorem after_joinSingle (hu : u.WellFormed) (ht : t.isUnion = false) (whole : Ty) (first : Bool)
    (k : Collector) :
    (joinSingle whole u t first).after k =
      if u.nested t.contents then k
      else k.checkSize (if first then t.contents.merged u else u.merged t.contents).size := by
  have hstored : u.contains t = true → u.contains t.stored = true := by
    intro h
    have ht : t.Storable := hu.storable t (hu.contains_iff.mp h)
    cases t <;> first | exact h | exact ht.elim
  rw [UnionOf.nested_contents hu ht, contents_of_isUnion_eq_false ht,
    UnionOf.merged_singleton_right hu, UnionOf.merged_singleton_left hu (storable_stored ht)]
  unfold joinSingle
  cases hmem : u.contains t with
  | true => simp [hstored hmem]
  | false =>
    cases hmem' : u.contains t.stored with
    | true => simp
    | false => cases first <;> simp [UnionOf.size]

theorem after_joinSingles (ha : a.isUnion = false) (hb : b.isUnion = false) (hne : a ≠ b)
    (k : Collector) :
    (joinSingles a b).after k =
      if a.contents.nested b.contents then k
      else k.checkSize (a.contents.merged b.contents).size := by
  have hone : ({ members := [a.stored], weak := a.isWeakNone } : Union).WellFormed :=
    UnionOf.wellFormed_singleton (storable_stored ha) _
  -- two different types that are stored alike are the two null types
  have hnull : ({ members := [a.stored], weak := a.isWeakNone } : Union).contains b.stored =
      (a.isNull && b.isNull) := by
    rw [Bool.eq_iff_iff, hone.contains_iff, List.mem_singleton, eq_comm]
    cases a <;> cases b <;> simp_all [isNull, stored, isUnion, toUnion?]
  rw [contents_of_isUnion_eq_false ha, UnionOf.nested_contents hone hb,
    contents_of_isUnion_eq_false hb, UnionOf.merged_singleton_right hone]
  unfold joinSingles
  cases hboth : a.isNull && b.isNull with
  | true => simp [hnull, hboth]
  | false => simp [hnull, hboth, UnionOf.size]

/-- A join checks the size of what it returns, but only if it had to build a list for it: if
neither operand stores all that the other stores. -/
theorem after_join (ha : a.WellFormed) (hb : b.WellFormed) (k : Collector) :
    (a.join b).after k =
      if a.contents.nested b.contents then k
      else k.checkSize (a.contents.merged b.contents).size := by
  unfold join
  cases hbeq : a == b with
  | true =>
    have hsame := ((beq_iff ha hb).mp hbeq).2.2
    simp [UnionOf.nested_of_same ha.contents hsame]
  | false =>
    simp only [Bool.false_eq_true, if_false]
    cases hau : a.toUnion? with
    | some u =>
      have hu : u.WellFormed := ha.of_toUnion? hau
      rw [contents_of_toUnion? hau]
      cases hbv : b.toUnion? with
      | some v =>
        have hv : v.WellFormed := hb.of_toUnion? hbv
        rw [contents_of_toUnion? hbv]
        exact after_joinUnions hu hv k
      | none => exact after_joinSingle hu (isUnion_eq_false_iff.mpr hbv) a false k
    | none =>
      have ha1 : a.isUnion = false := isUnion_eq_false_iff.mpr hau
      cases hbv : b.toUnion? with
      | some v =>
        have hv : v.WellFormed := hb.of_toUnion? hbv
        rw [contents_of_toUnion? hbv, UnionOf.nested_comm]
        exact after_joinSingle hv ha1 b true k
      | none =>
        have hne : a ≠ b := by
          rintro rfl
          rw [(beq_iff_eq_of_left hau).mpr rfl] at hbeq
          cases hbeq
        exact after_joinSingles ha1 (isUnion_eq_false_iff.mpr hbv) hne k

end Ty

end UnionTypes
