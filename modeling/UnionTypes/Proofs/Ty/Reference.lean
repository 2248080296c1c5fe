import UnionTypes.Proofs.Ty.Semilattice

/-!
# Merging by its definition

`Ty.join` has a shortcut for equal operands and one branch for each way in which its operands can be
unions; `mergeAll` runs it along a list in which types may be absent. What is stored in the end
needs none of this to be said: one of the two lists of members where it holds the other, and both
of them without repetition where neither does; and of many operands, whatever one of them stores.

* **`UnionOf.members_merged`** — the members that a join leaves, in plain terms of lists;
* **`contents_mergeAll`** — what a merge of many stores, by what its operands store;
* **`merge_contents`** — both together.
-/

namespace UnionTypes

/-! ## Two operands -/

open scoped Classical in
/-- The members of a merge, with `⊆` and `∉` in place of the tests that the code makes. -/
theorem UnionOf.members_merged {u v : Union} (hu : u.WellFormed) (hv : v.WellFormed) :
    (u.merged v).members =
      if u.members ⊆ v.members ∧ u.members.length < v.members.length then v.members
      else if v.members ⊆ u.members then u.members
      else u.members ++ v.members.filter (· ∉ u.members) := by
  have hshorter : (u.size < v.size && v.includes u) = true ↔
      u.members ⊆ v.members ∧ u.members.length < v.members.length := by
    rw [Bool.and_eq_true, decide_eq_true_iff, hv.includes_iff, and_comm]
    rfl
  have hnew : v.members.filter (!u.contains ·) = v.members.filter (· ∉ u.members) := by
    refine List.filter_congr fun m _ => ?_
    rw [Bool.eq_iff_iff, Bool.not_eq_true', ← Bool.not_eq_true, hu.contains_iff,
      decide_eq_true_iff]
  simp only [merged, hshorter, hu.includes_iff, hnew]

namespace Ty

theorem stored_eq_iff {a b : Ty} (ha : a.isUnion = false) (hb : b.isUnion = false) :
    a.stored = b.stored ↔ a.contents.members = b.contents.members := by
  rw [contents_of_isUnion_eq_false ha, contents_of_isUnion_eq_false hb, List.singleton_inj]

theorem IsJoin.toUnion?_eq_none_iff {a b t : Ty} (h : IsJoin a b t) :
    t.toUnion? = Option.none ↔
      a.toUnion? = Option.none ∧ b.toUnion? = Option.none ∧
        a.contents.members = b.contents.members := by
  simp only [← Ty.isUnion_eq_false_iff, h.isUnion_eq_false_iff]
  refine and_congr_right fun ha => and_congr_right fun hb => ?_
  exact stored_eq_iff ha hb

end Ty

/-! ## Many operands -/

namespace Outline

theorem nonempty_of_iff {o : Option Ty} (ho : ∀ t ∈ o, t.WellFormed) :
    (Outline.of o).members.Nonempty ↔ o ≠ none := by
  cases o with
  | none => simp [Outline.of, Outline.absent]
  | some t =>
    refine iff_of_true ?_ (by simp)
    exact List.exists_mem_of_ne_nil _ (ho t rfl).contents.members_ne_nil

theorem mem_of_iff {o : Option Ty} {m : Ty} :
    m ∈ (Outline.of o).members ↔ ∃ t, o = some t ∧ m ∈ t.contents.members := by
  cases o with
  | none => simp [Outline.of, Outline.absent]
  | some t => simp [Outline.of, Ty.outline]

theorem weak_of_iff {o : Option Ty} :
    (Outline.of o).weak ↔ o = none ∨ ∃ t, o = some t ∧ t.contents.weak = true := by
  cases o with
  | none => simp [Outline.of, Outline.absent]
  | some t => simp [Outline.of, Ty.outline]

end Outline

theorem mergeAll_eq_none_iff {ts : List (Option Ty)} (hts : ∀ o ∈ ts, ∀ t ∈ o, t.WellFormed)
    (k : Collector) : (mergeAll ts).value k = none ↔ ∀ o ∈ ts, o = none := by
  rcases eq_or_ne ts [] with rfl | hne
  · simp [mergeAll]
  -- a type stores something, so what is absent is what has no members
  have hpresent := Outline.of_mergeAll_iff (p := (·.members.Nonempty))
    (fun _ _ => Set.union_nonempty) hne hts k
  rw [Outline.nonempty_of_iff (wellFormed_mergeAll hts k)] at hpresent
  rw [← not_iff_not, ← ne_eq, hpresent]
  push Not
  exact exists_congr fun o => and_congr_right fun ho => Outline.nonempty_of_iff (hts o ho)

/-- A merge of many stores what its operands store, and is weak if one of them is weak or absent. -/
theorem contents_mergeAll {ts : List (Option Ty)} (hts : ∀ o ∈ ts, ∀ t ∈ o, t.WellFormed)
    {k : Collector} {r : Ty} (h : (mergeAll ts).value k = some r) :
    (∀ m, m ∈ r.contents.members ↔ ∃ t, some t ∈ ts ∧ m ∈ t.contents.members) ∧
    (r.contents.weak = true ↔ none ∈ ts ∨ ∃ t, some t ∈ ts ∧ t.contents.weak = true) := by
  have hne : ts ≠ [] := by
    rintro rfl
    simp [mergeAll] at h
  constructor
  · intro m
    have hmem := Outline.of_mergeAll_iff (p := (m ∈ ·.members)) (fun _ _ => Iff.rfl) hne hts k
    rw [h] at hmem
    show m ∈ (Outline.of (some r)).members ↔ _
    rw [hmem]
    simp only [Outline.mem_of_iff]
    constructor
    · rintro ⟨_, ho, t, rfl, hm⟩
      exact ⟨t, ho, hm⟩
    · rintro ⟨t, ho, hm⟩
      exact ⟨_, ho, t, rfl, hm⟩
  · have hweak := Outline.of_mergeAll_iff (p := (·.weak)) (fun _ _ => Iff.rfl) hne hts k
    rw [h] at hweak
    show (Outline.of (some r)).weak ↔ _
    rw [hweak]
    simp only [Outline.weak_of_iff]
    constructor
    · rintro ⟨_, ho, rfl | ⟨t, rfl, ht⟩⟩
      · exact Or.inl ho
      · exact Or.inr ⟨t, ho, ht⟩
    · rintro (ho | ⟨t, ho, ht⟩)
      · exact ⟨_, ho, Or.inl rfl⟩
      · exact ⟨_, ho, Or.inr ⟨t, rfl, ht⟩⟩

/-! ## Both -/

open scoped Classical in
/-- **What merging stores, whichever branch computes it.** A join keeps the longer list if it holds
the other, the left one if it holds the right, and otherwise adds to the left what is new in the
right; it is no union just if neither operand is one and both store the same thing; it is weak if an
operand is. A merge of many is absent just if they all are; it stores what they store, and is weak
if one of them is weak or absent. -/
theorem merge_contents {a b : Ty} {ts : List (Option Ty)} (ha : a.WellFormed) (hb : b.WellFormed)
    (hts : ∀ o ∈ ts, ∀ t ∈ o, t.WellFormed) (k : Collector) :
    let r := (a.join b).value k
    r.contents.weak = (a.contents.weak || b.contents.weak) ∧
    r.contents.members =
      (if a.contents.members ⊆ b.contents.members ∧
          a.contents.members.length < b.contents.members.length then b.contents.members
      else if b.contents.members ⊆ a.contents.members then a.contents.members
      else a.contents.members ++ b.contents.members.filter (· ∉ a.contents.members)) ∧
    (r.toUnion? = none ↔
      a.toUnion? = none ∧ b.toUnion? = none ∧ a.contents.members = b.contents.members) ∧
    ((mergeAll ts).value k = none ↔ ∀ o ∈ ts, o = none) ∧
    ∀ t, (mergeAll ts).value k = some t →
      (∀ m, m ∈ t.contents.members ↔ ∃ s, some s ∈ ts ∧ m ∈ s.contents.members) ∧
      (t.contents.weak = true ↔ none ∈ ts ∨ ∃ s, some s ∈ ts ∧ s.contents.weak = true) := by
  intro r
  have hjoin : Ty.IsJoin a b r := Ty.isJoin_join ha hb k
  refine ⟨?weak, ?members, hjoin.toUnion?_eq_none_iff, mergeAll_eq_none_iff hts k,
    fun t ht => contents_mergeAll hts ht⟩
  case weak =>
    rw [hjoin.contents]
    rfl
  case members => rw [hjoin.contents, UnionOf.members_merged ha.contents hb.contents]

/-- A union takes in the weak null type, which is stored behind its members; and an absent operand
in the middle of a list makes the merge weak. -/
theorem merge_contents_of_weakNone :
    let u : Ty := .union ⟨[.cls Class.Builtin.int, .cls Class.Builtin.str], false⟩
    ((u.join .weakNone).value {}).contents.weak = true ∧
    ((u.join .weakNone).value {}).toUnion? ≠ none ∧
    (mergeAll [some .none, none, some u]).value {} ≠ none ∧
    ∀ t, (mergeAll [some .none, none, some u]).value {} = some t →
      .cls Class.Builtin.str ∈ t.contents.members ∧ t.contents.weak = true := by
  intro u
  obtain ⟨hweak, -, hunion, habsent, hall⟩ := @merge_contents u .weakNone
    [some .none, none, some u] (by decide) (by decide) (by decide) {}
  refine ⟨hweak, ?_, ?_, fun t ht => ⟨?_, ?_⟩⟩
  · rw [ne_eq, hunion]
    rintro ⟨hu, -, -⟩
    cases hu
  · rw [ne_eq, habsent]
    intro h
    cases h (some .none) List.mem_cons_self
  · exact ((hall t ht).1 _).mpr ⟨u, by simp, List.mem_cons_of_mem _ List.mem_cons_self⟩
  · exact (hall t ht).2.mpr (Or.inl (by simp))

end UnionTypes
