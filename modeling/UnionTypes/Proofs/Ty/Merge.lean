import UnionTypes.Proofs.Ty.Contents

/-!
# What a join returns

`Ty.join` has four branches, by whether its operands are unions, and three shortcuts that give an
operand back. This module says once what all of them come to, so that no later proof has to go
through the branches:

* **`UnionOf.merged`** — the merge of two unions: the members of the one that holds the other's,
  and both lists one behind the other, without repetition, where neither does;
* **`Ty.IsJoin a b t`** — `t` stores the merge of what `a` and `b` store, and is no union only if
  neither operand is one and they store the same;
* **`Ty.isJoin_join`** — whatever the collector, `a.join b` returns such a type.

The rest carries well-formedness from `join` to `weaken`, `merge` and `mergeAll`.
-/

namespace UnionTypes

/-! ## The merge of two unions -/

namespace UnionOf

/-- The merge of two unions, with the members in the order in which a join leaves them. -/
def merged (u v : Union) : Union where
  members :=
    if u.size < v.size && v.includes u then v.members
    else if u.includes v then u.members
    else u.members ++ v.members.filter (!u.contains ·)
  weak := u.weak || v.weak

variable {u v : Union}

theorem mem_merged (hu : u.WellFormed) (hv : v.WellFormed) {t : Ty} :
    t ∈ (u.merged v).members ↔ t ∈ u.members ∨ t ∈ v.members := by
  unfold merged
  split
  next h =>
    have hsub : u.members ⊆ v.members := hv.includes_iff.mp (by simp_all)
    exact ⟨Or.inr, fun h => h.elim (hsub ·) id⟩
  next =>
    split
    next h =>
      have hsub : v.members ⊆ u.members := hu.includes_iff.mp h
      exact ⟨Or.inl, fun h => h.elim id (hsub ·)⟩
    next =>
      have hnew : (!u.contains t) = true ↔ t ∉ u.members := by
        rw [← hu.contains_iff]; simp
      rw [List.mem_append, List.mem_filter, hnew]
      by_cases ht : t ∈ u.members
      · simp [ht]
      · simp [ht]

theorem WellFormed.merged (hu : u.WellFormed) (hv : v.WellFormed) : (u.merged v).WellFormed := by
  have hne : (u.merged v).members ≠ [] := by
    obtain ⟨t, ht⟩ := List.exists_mem_of_ne_nil _ hu.members_ne_nil
    exact List.ne_nil_of_mem ((mem_merged hu hv).mpr (Or.inl ht))
  refine Fit.wellFormed ⟨?_, ?_⟩ hne
  · unfold UnionOf.merged
    split
    next => exact hv.nodup
    next =>
      split
      next => exact hu.nodup
      next =>
        refine List.nodup_append.mpr ⟨hu.nodup, hv.nodup.filter _, ?_⟩
        intro s hs t ht heq
        have hnew : u.contains t = false := by simpa using (List.mem_filter.mp ht).2
        rw [heq] at hs
        rw [hu.contains_iff.mpr hs] at hnew
        exact Bool.noConfusion hnew
  · intro t ht
    rcases (mem_merged hu hv).mp ht with ht | ht
    · exact hu.storable t ht
    · exact hv.storable t ht

/-- Merging with a union of the same members keeps the order of the left one. -/
theorem members_merged_of_same (hu : u.WellFormed) (hv : v.WellFormed)
    (h : ∀ t, t ∈ u.members ↔ t ∈ v.members) : (u.merged v).members = u.members := by
  have hlen : u.members.length = v.members.length :=
    ((List.perm_ext_iff_of_nodup hu.nodup hv.nodup).mpr h).length_eq
  have hincl : u.includes v = true := hu.includes_iff.mpr fun t ht => (h t).mpr ht
  simp [merged, size, hlen, hincl]

/-- Merging a single member with a union puts it in front, unless it is stored already. -/
theorem merged_singleton_left (hv : v.WellFormed) {t : Ty} (ht : t.Storable) (weak : Bool) :
    ({ members := [t], weak } : Union).merged v =
      { members := if v.contains t then v.members else t :: v.members, weak := weak || v.weak } := by
  have hone : ({ members := [t], weak } : Union).WellFormed :=
    wellFormed_singleton ht weak
  cases hmem : v.contains t with
  | true =>
    have htv : t ∈ v.members := hv.contains_iff.mp hmem
    have hincl : v.includes { members := [t], weak } = true := hv.includes_iff.mpr (by simpa)
    by_cases hlt : 1 < v.members.length
    · simp [merged, size, hlt, hincl]
    · have hpos : 0 < v.members.length := List.length_pos_of_mem htv
      obtain ⟨s, hs⟩ := List.length_eq_one_iff.mp (show v.members.length = 1 by omega)
      obtain rfl : t = s := by rwa [hs, List.mem_singleton] at htv
      have hback : ({ members := [t], weak } : Union).includes v = true :=
        hone.includes_iff.mpr (by rw [hs]; exact List.Subset.refl _)
      simp [merged, size, hs, hback]
  | false =>
    have htv : t ∉ v.members := by rw [← hv.contains_iff, hmem]; simp
    have hincl : v.includes { members := [t], weak } = false := by
      refine Bool.eq_false_iff.mpr fun h => htv ?_
      exact hv.includes_iff.mp h List.mem_cons_self
    have hback : ({ members := [t], weak } : Union).includes v = false := by
      refine Bool.eq_false_iff.mpr fun h => ?_
      obtain ⟨s, hs⟩ := List.exists_mem_of_ne_nil _ hv.members_ne_nil
      have hst : s ∈ [t] := hone.includes_iff.mp h hs
      rw [List.mem_singleton.mp hst] at hs
      exact htv hs
    have hfilter : v.members.filter
        (fun s => !({ members := [t], weak } : Union).contains s) = v.members := by
      refine List.filter_eq_self.mpr fun s hs => ?_
      have hne : s ≠ t := fun heq => htv (heq ▸ hs)
      have hnot : ¬ ({ members := [t], weak } : Union).contains s = true := by
        rw [hone.contains_iff]; simpa using hne
      simpa using hnot
    simp [merged, hincl, hback, hfilter]

/-- Merging a union with a single member puts it at the end, unless it is stored already. -/
theorem merged_singleton_right (hu : u.WellFormed) (t : Ty) (weak : Bool) :
    u.merged { members := [t], weak } =
      { members := if u.contains t then u.members else u.members ++ [t],
        weak := u.weak || weak } := by
  have hpos : 0 < u.members.length := List.length_pos_iff.mpr hu.members_ne_nil
  have hsize : ¬ u.size < ({ members := [t], weak } : Union).size := by
    simp only [size, List.length_singleton]; omega
  cases hmem : u.contains t with
  | true =>
    have hincl : u.includes { members := [t], weak } = true := by simp [includes, hmem]
    simp [merged, hsize, hincl]
  | false =>
    have hincl : u.includes { members := [t], weak } = false := by simp [includes, hmem]
    simp [merged, hsize, hincl, hmem]

/-- Merging with a type that is stored already, on whichever side, gives the union back. -/
theorem merged_contents_of_contains (hu : u.WellFormed) {t : Ty} (h : u.contains t = true) :
    u.merged t.contents = u ∧ t.contents.merged u = u := by
  have ht : t.Storable := hu.storable t (hu.contains_iff.mp h)
  rw [Ty.contents_of_storable ht, merged_singleton_right hu, merged_singleton_left hu ht]
  simp [h]

end UnionOf

/-! ## The branches of a join -/

namespace Ty

/-- The type is what a join of the two others must be: it stores what they store, it is no union
only if neither of them is one and they store the same thing, and it is dynamic only if one of them
is. -/
structure IsJoin (a b t : Ty) : Prop where
  contents : t.contents = a.contents.merged b.contents
  isUnion_eq_false_iff :
    t.isUnion = false ↔ a.isUnion = false ∧ b.isUnion = false ∧ a.stored = b.stored
  isDynamic_eq_false : a.isDynamic = false → b.isDynamic = false → t.isDynamic = false
  wellFormed : t.WellFormed

theorem isUnion_union (u : Union) : (Ty.union u).isUnion = true := rfl

variable {a b : Ty}

theorem isJoin_joinSingles (ha : a.isUnion = false) (hb : b.isUnion = false) (hne : a ≠ b)
    (k : Collector) : IsJoin a b ((joinSingles a b).value k) := by
  cases hnull : a.isNull && b.isNull with
  | true =>
    have hvalue : (joinSingles a b).value k = .weakNone := by simp [joinSingles, hnull]
    rw [hvalue]
    -- one of the two is the null value and the other the weak null type
    cases a <;> cases b <;> simp [isNull] at hnull hne
    · exact ⟨rfl, by simp [isUnion, toUnion?, stored], fun _ _ => rfl, trivial⟩
    · exact ⟨rfl, by simp [isUnion, toUnion?, stored], fun _ _ => rfl, trivial⟩
  | false =>
    have hvalue : (joinSingles a b).value k =
        .union ⟨[a.stored, b.stored], a.isWeakNone || b.isWeakNone⟩ := by
      simp [joinSingles, hnull]
    have hstored : a.stored ≠ b.stored := by
      cases a <;> cases b <;> simp_all [isNull, stored, isUnion, toUnion?]
    have hone : ({ members := [b.stored], weak := b.isWeakNone } : Union).WellFormed :=
      UnionOf.wellFormed_singleton (storable_stored hb) _
    have hmerged : a.contents.merged b.contents =
        ⟨[a.stored, b.stored], a.isWeakNone || b.isWeakNone⟩ := by
      have hnot : ({ members := [b.stored], weak := b.isWeakNone } : Union).contains a.stored =
          false := by
        refine Bool.eq_false_iff.mpr fun h => ?_
        rw [hone.contains_iff] at h
        exact hstored (List.mem_singleton.mp h)
      rw [contents_of_isUnion_eq_false ha, contents_of_isUnion_eq_false hb,
        UnionOf.merged_singleton_left hone (storable_stored ha), hnot]
      simp
    rw [hvalue]
    refine ⟨hmerged.symm, by simp [isUnion_union, hstored], fun _ _ => rfl, ?_⟩
    rw [← hmerged, contents_of_isUnion_eq_false ha, contents_of_isUnion_eq_false hb]
    exact (UnionOf.wellFormed_singleton (storable_stored ha) _).merged hone

/-- The join of a union with a type that is none gives the whole union back, in its own variant, if
the type is stored there, and the merge of the two otherwise. -/
theorem value_joinSingle {u : Union} (hu : u.WellFormed) {t : Ty} (ht : t.isUnion = false)
    (whole : Ty) (first : Bool) (k : Collector) :
    (joinSingle whole u t first).value k =
      if u.contains t then whole
      else .union (if first then t.contents.merged u else u.merged t.contents) := by
  unfold joinSingle
  cases hmem : u.contains t with
  | true => rfl
  | false =>
    rw [contents_of_isUnion_eq_false ht, UnionOf.merged_singleton_right hu,
      UnionOf.merged_singleton_left hu (storable_stored ht)]
    cases hstored : u.contains t.stored with
    | true => cases first <;> simp [Bool.or_comm]
    | false => cases first <;> simp [Bool.or_comm]

theorem value_joinUnions {u v : Union} (hv : v.WellFormed) (k : Collector) :
    (joinUnions u v).value k = u.merged v := by
  unfold joinUnions UnionOf.merged
  rw [UnionOf.insertMembers_eq hv.fit]
  cases hlt : u.size < v.size && v.includes u with
  | true => simp
  | false =>
    cases hincl : u.includes v with
    | true => simp
    | false => simp [UnionOf.contains]

/-- A type joined with an equal one is given back. -/
theorem isJoin_of_beq (ha : a.WellFormed) (hb : b.WellFormed) (h : (a == b) = true) :
    IsJoin a b a := by
  obtain ⟨hunion, hweak, hmem⟩ := (beq_iff ha hb).mp h
  refine ⟨?contents, ⟨?single, fun h => h.1⟩, fun h _ => h, ha⟩
  case contents =>
    have hmembers := UnionOf.members_merged_of_same ha.contents hb.contents hmem
    have hflag : (a.contents.merged b.contents).weak = a.contents.weak := by
      simp [UnionOf.merged, hweak]
    exact (congrArg₂ UnionOf.mk hmembers hflag).symm
  case single =>
    intro hau
    have heq : a = b := (beq_iff_eq_of_left (isUnion_eq_false_iff.mp hau)).mp h
    exact ⟨hau, hunion ▸ hau, heq ▸ rfl⟩

/-- Of two types one of which is a union, the strong or weak union of all they store is a join. -/
theorem isJoin_union_merged (ha : a.WellFormed) (hb : b.WellFormed)
    (hunion : a.isUnion = true ∨ b.isUnion = true) :
    IsJoin a b (.union (a.contents.merged b.contents)) := by
  refine ⟨rfl, ?_, fun _ _ => rfl, ha.contents.merged hb.contents⟩
  rw [isUnion_union]
  rcases hunion with h | h <;> simp [h]

/-- A union is its own join with what it stores, on whichever side it stands. -/
theorem isJoin_whole {u : Union} (ha : a.WellFormed) (hau : a.toUnion? = some u)
    (hmem : u.contains b = true) : IsJoin a b a ∧ IsJoin b a a := by
  obtain ⟨hright, hleft⟩ := UnionOf.merged_contents_of_contains (ha.of_toUnion? hau) hmem
  rw [← contents_of_toUnion? hau] at hright hleft
  have hunion := isUnion_of_toUnion? hau
  exact ⟨⟨hright.symm, by simp [hunion], fun h _ => h, ha⟩,
    ⟨hleft.symm, by simp [hunion], fun _ h => h, ha⟩⟩

/-! ## The join as a whole -/

/-- Whatever the collector, a join of well-formed types returns what a join must be. -/
theorem isJoin_join (ha : a.WellFormed) (hb : b.WellFormed) (k : Collector) :
    IsJoin a b ((a.join b).value k) := by
  unfold join
  cases hbeq : a == b with
  | true => exact isJoin_of_beq ha hb hbeq
  | false =>
    simp only [Bool.false_eq_true, if_false]
    cases hau : a.toUnion? with
    | some u =>
      have hmerged := isJoin_union_merged ha hb (Or.inl (isUnion_of_toUnion? hau))
      rw [contents_of_toUnion? hau] at hmerged
      cases hbv : b.toUnion? with
      | some v =>
        rw [contents_of_toUnion? hbv] at hmerged
        simpa only [WarnM.value_bind, WarnM.value_pure, value_joinUnions (hb.of_toUnion? hbv)]
      | none =>
        rw [value_joinSingle (ha.of_toUnion? hau) (isUnion_eq_false_iff.mpr hbv)]
        cases hmem : u.contains b with
        | true => exact (isJoin_whole ha hau hmem).1
        | false => exact hmerged
    | none =>
      cases hbv : b.toUnion? with
      | some v =>
        have hmerged := isJoin_union_merged ha hb (Or.inr (isUnion_of_toUnion? hbv))
        rw [contents_of_toUnion? hbv] at hmerged
        rw [value_joinSingle (hb.of_toUnion? hbv) (isUnion_eq_false_iff.mpr hau)]
        cases hmem : v.contains a with
        | true => exact (isJoin_whole hb hbv hmem).2
        | false => exact hmerged
      | none =>
        have hne : a ≠ b := by
          rintro rfl
          rw [(beq_iff_eq_of_left hau).mpr rfl] at hbeq
          cases hbeq
        exact isJoin_joinSingles (isUnion_eq_false_iff.mpr hau) (isUnion_eq_false_iff.mpr hbv) hne k

/-! ## Weakening -/

theorem contents_weaken {t : Ty} (ht : t.WellFormed) :
    t.weaken.contents = { t.contents with weak := true } := by
  cases t with
  | dynamic u =>
    obtain ⟨members, weak⟩ := u
    obtain rfl : weak = true := ht.2
    rfl
  | _ => rfl

/-- Only the null types stay without a union when they are weakened. -/
theorem isUnion_weaken (t : Ty) : t.weaken.isUnion = (t.isUnion || !t.isNull) := by
  cases t <;> rfl

theorem WellFormed.weaken {t : Ty} (ht : t.WellFormed) : t.weaken.WellFormed := by
  cases t with
  | cls c => exact UnionOf.wellFormed_singleton (t := .cls c) trivial true
  | none => trivial
  | weakNone => trivial
  | union u => exact UnionOf.WellFormed.withWeak (u := u) ht true
  | dynamic u => exact ht

end Ty

/-! ## Merges of types that may be absent -/

/-- A merge of well-formed types returns a well-formed one, if it returns any. -/
theorem wellFormed_merge {a b : Option Ty} (ha : ∀ t ∈ a, t.WellFormed)
    (hb : ∀ t ∈ b, t.WellFormed) (k : Collector) :
    ∀ t ∈ (merge a b).value k, t.WellFormed := by
  cases a with
  | none =>
    cases b with
    | none => simp [merge]
    | some b => simpa [merge] using (hb b rfl).weaken
  | some a =>
    cases b with
    | none => simpa [merge] using (ha a rfl).weaken
    | some b => simpa [merge] using (Ty.isJoin_join (ha a rfl) (hb b rfl) k).wellFormed

/-- The same of any number of types. The merge goes from left to right, and every step of it is a
merge of two. -/
theorem wellFormed_mergeAll {ts : List (Option Ty)} (hts : ∀ o ∈ ts, ∀ t ∈ o, t.WellFormed)
    (k : Collector) : ∀ t ∈ (mergeAll ts).value k, t.WellFormed := by
  cases ts with
  | nil => simp [mergeAll]
  | cons t ts =>
    have hstep : ∀ a : Option Ty, (∀ t ∈ a, t.WellFormed) → ∀ b ∈ ts, ∀ k,
        ∀ t ∈ (merge a b).value k, t.WellFormed := by
      intro a ha b hb k
      exact wellFormed_merge ha (hts b (List.mem_cons_of_mem t hb)) k
    exact WarnM.value_foldlM_of_step ts hstep t (hts t List.mem_cons_self) k

end UnionTypes
