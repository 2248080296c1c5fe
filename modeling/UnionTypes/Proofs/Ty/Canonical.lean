import UnionTypes.Proofs.Ty.Narrow
import UnionTypes.Proofs.Ty.Semilattice

/-!
# Canonical forms

A union of one class is not equal to that class, so two types can store the same and still differ.
Merging and narrowing never get that far: they make a union only where one is needed, and an
outline is `Tight` if there is no union in it but for that reason. What an operation returns is
tight if its operands are, so all types that are derived from classes and null types are, and
among tight types what is stored, and how weakly, decides.

* **`Outline.Tight.max`** — a join is tight if both operands are;
* **`Ty.Canonical`** — well formed and tight, kept by merging, weakening, narrowing and dropping
  absence;
* **`Derived.canonical_form`** — so derived types have one form each.
-/

namespace UnionTypes

/-! ## Tight outlines -/

namespace Outline

/-- There is a union only where one is needed. -/
def Tight (x : Outline) : Prop := x.union → ¬ Bare x.members x.weak

variable {x y : Outline}

theorem Tight.max (hx : x.Tight) (hy : y.Tight) : (x ⊔ y).Tight := by
  -- what one operand needs a union for, the join needs one for
  rintro (hunion | hunion | hneeded)
  · intro h
    exact hx hunion (h.mono Set.subset_union_left Or.inl)
  · intro h
    exact hy hunion (h.mono Set.subset_union_right Or.inr)
  · exact hneeded

theorem tight_absent : absent.Tight := False.elim

theorem Tight.ext (hx : x.Tight) (hy : y.Tight) (hmembers : x.members = y.members)
    (hweak : x.weak = y.weak) : x = y := by
  have hunion : ∀ z : Outline, z.Tight → (z.union ↔ ¬ Bare z.members z.weak) :=
    fun z hz => ⟨hz, z.union_of_not_bare⟩
  refine Outline.ext hmembers hweak (propext ?_)
  rw [hunion x hx, hunion y hy, hmembers, hweak]

end Outline

/-! ## Canonical types -/

theorem UnionOf.WellFormed.bare_iff {u : Union} (hu : u.WellFormed) :
    Bare {m | m ∈ u.members} (u.weak = true) ↔
      ∃ m, u.members = [m] ∧ (u.weak = true → m = .none) := by
  constructor
  · rintro ⟨hone, hnull⟩
    obtain ⟨m, hm⟩ := List.exists_mem_of_ne_nil _ hu.members_ne_nil
    have hrepeat : u.members = List.replicate u.members.length m :=
      List.eq_replicate_iff.mpr ⟨rfl, fun n hn => hone n hn m hm⟩
    -- what is stored once and is all the same is one thing
    have hlen : u.members.length ≤ 1 := List.nodup_replicate.mp (hrepeat ▸ hu.nodup)
    have hpos : 0 < u.members.length := List.length_pos_of_mem hm
    rw [show u.members.length = 1 by omega] at hrepeat
    exact ⟨m, hrepeat, fun hw => hnull hw m hm⟩
  · rintro ⟨m, hm, hnull⟩
    rw [hm]
    exact ⟨by simp, by simpa using hnull⟩

/-- A type of which the library has no second form. -/
structure Ty.Canonical (t : Ty) : Prop where
  wellFormed : t.WellFormed
  tight : t.outline.Tight

namespace Ty

variable {t : Ty}

theorem canonical_of_isUnion_eq_false (ht : t.isUnion = false) : t.Canonical where
  wellFormed := by
    cases t with
    | cls c => trivial
    | none => trivial
    | weakNone => trivial
    | union u => cases ht
    | dynamic u => cases ht
  tight := by
    intro hunion
    have hunion : t.isUnion = true := hunion
    rw [ht] at hunion
    cases hunion

/-- A union is canonical if it stores two things, or weakly something other than the null value. -/
theorem canonical_union_iff {u : Union} (hu : u.WellFormed) :
    (Ty.union u).Canonical ↔ ∀ m, u.members = [m] → u.weak = true ∧ m ≠ .none := by
  constructor
  · intro h m hm
    have hneeded : ¬ Bare {m | m ∈ u.members} (u.weak = true) := h.tight rfl
    rw [hu.bare_iff] at hneeded
    push Not at hneeded
    exact hneeded m hm
  · intro h
    refine ⟨hu, fun _ hb => ?_⟩
    obtain ⟨m, hm, hnull⟩ := hu.bare_iff.mp hb
    exact (h m hm).2 (hnull (h m hm).1)

end Ty

/-! ## What keeps types canonical -/

theorem canonical_of_outline {a : Option Ty} (ha : ∀ t ∈ a, t.WellFormed)
    (h : (Outline.of a).Tight) : ∀ t ∈ a, t.Canonical := by
  rintro t rfl
  exact ⟨ha t rfl, h⟩

theorem tight_of_canonical {a : Option Ty} (ha : ∀ t ∈ a, t.Canonical) : (Outline.of a).Tight := by
  cases a with
  | none => exact Outline.tight_absent
  | some t => exact (ha t rfl).tight

theorem canonical_merge {a b : Option Ty} (ha : ∀ t ∈ a, t.Canonical) (hb : ∀ t ∈ b, t.Canonical)
    (k : Collector) : ∀ t ∈ (merge a b).value k, t.Canonical := by
  have hwa : ∀ t ∈ a, t.WellFormed := fun t ht => (ha t ht).wellFormed
  have hwb : ∀ t ∈ b, t.WellFormed := fun t ht => (hb t ht).wellFormed
  refine canonical_of_outline (wellFormed_merge hwa hwb k) ?_
  rw [Outline.of_merge hwa hwb]
  exact (tight_of_canonical ha).max (tight_of_canonical hb)

theorem canonical_mergeAll {ts : List (Option Ty)} (hts : ∀ o ∈ ts, ∀ t ∈ o, t.Canonical)
    (k : Collector) : ∀ t ∈ (mergeAll ts).value k, t.Canonical := by
  cases ts with
  | nil => simp [mergeAll]
  | cons o ts =>
    refine WarnM.value_foldlM_of_step (p := fun a => ∀ t ∈ a, t.Canonical) ts ?_ o
      (hts o List.mem_cons_self) k
    intro a ha b hb k
    exact canonical_merge ha (hts b (List.mem_cons_of_mem o hb)) k

theorem Ty.Canonical.weaken {t : Ty} (ht : t.Canonical) : t.weaken.Canonical where
  wellFormed := ht.wellFormed.weaken
  tight := by
    -- weakening is a join with what is absent
    rw [Ty.outline_weaken ht.wellFormed]
    exact Outline.tight_absent.max ht.tight

/-- The compact form of a union is canonical: a member that is alone becomes a type that is no
union, unless it is a class and the union is weak. -/
theorem UnionOf.canonical_of_compact {u : Union} (hu : Fit u.members) {t : Ty}
    (h : u.compact = some t) : t.Canonical := by
  have ht : t.WellFormed := (contents_of_compact hu h).2.2
  obtain ⟨members, weak⟩ := u
  match members with
  | [] => cases h
  | [m] =>
    have hm : m.Storable := hu.storable m List.mem_cons_self
    have hone : m.Canonical := Ty.canonical_of_isUnion_eq_false hm.isUnion_eq_false
    obtain rfl : (if weak then m.weaken else m) = t := by simpa [compact] using h
    cases weak with
    | true => exact hone.weaken
    | false => exact hone
  | a :: b :: ms =>
    obtain rfl : Ty.union ⟨a :: b :: ms, weak⟩ = t := by simpa [compact] using h
    exact (Ty.canonical_union_iff ht).mpr fun m hm => by simp at hm

namespace Ty.Canonical

variable {t r : Ty}

theorem exclude (ht : t.Canonical) {target : Option Ty} {ctx : Context} {k : Collector}
    (h : (t.exclude target ctx).value k = some r) : r.Canonical := by
  cases hu : t.toUnion? with
  | some u =>
    have hwf : u.WellFormed := ht.wellFormed.of_toUnion? hu
    rw [Ty.exclude_of_toUnion? hu, UnionOf.value_exclude hwf] at h
    exact UnionOf.canonical_of_compact (hwf.fit.filter _) h
  | none => exact Ty.eq_of_exclude hu h ▸ ht

theorem of_toUnion? {u : Union} (ht : t.Canonical) (hu : t.toUnion? = some u) :
    (Ty.union u).Canonical := by
  have hwf : (Ty.union u).WellFormed := ht.wellFormed.of_toUnion? hu
  refine ⟨hwf, fun _ => ?_⟩
  have hneeded : ¬ Bare {m | m ∈ t.contents.members} (t.contents.weak = true) :=
    ht.tight (Ty.isUnion_of_toUnion? hu)
  rwa [Ty.contents_of_toUnion? hu] at hneeded

theorem withoutAbsence {u : Union} (hu : (Ty.union u).Canonical) : u.withoutAbsence.Canonical := by
  have hwf : u.WellFormed := hu.wellFormed
  unfold UnionOf.withoutAbsence
  split
  next m =>
    have hm : m.Storable := hwf.storable m List.mem_cons_self
    exact Ty.canonical_of_isUnion_eq_false hm.isUnion_eq_false
  next ms weak hne =>
    refine (Ty.canonical_union_iff (hwf.withWeak false)).mpr fun m hm => ?_
    -- a single member would have been weak, and that is the other case
    obtain ⟨hweak, -⟩ := (Ty.canonical_union_iff hwf).mp hu m hm
    obtain rfl : ms = [m] := hm
    exact (hne m rfl hweak).elim

end Ty.Canonical

/-! ## Derived types -/

/-- A type that merging and narrowing derive from the classes and the two null types. -/
inductive Derived : Ty → Prop where
  | cls (c : Class) : Derived (.cls c)
  | none : Derived .none
  | weakNone : Derived .weakNone
  | merge {a b : Option Ty} {k : Collector} {t : Ty} (ha : ∀ s ∈ a, Derived s)
      (hb : ∀ s ∈ b, Derived s) (h : (merge a b).value k = some t) : Derived t
  | mergeAll {ts : List (Option Ty)} {k : Collector} {t : Ty}
      (hts : ∀ o ∈ ts, ∀ s ∈ o, Derived s) (h : (mergeAll ts).value k = some t) : Derived t
  | weaken {t : Ty} (ht : Derived t) : Derived t.weaken
  | exclude {t r : Ty} {target : Option Ty} {ctx : Context} {k : Collector} (ht : Derived t)
      (h : (t.exclude target ctx).value k = some r) : Derived r
  | withoutAbsence {t : Ty} {u : Union} (ht : Derived t) (hu : t.toUnion? = some u) :
      Derived u.withoutAbsence

namespace Derived

theorem canonical {t : Ty} (h : Derived t) : t.Canonical := by
  -- one lemma for each operation a type may come from
  induction h with
  | cls c => exact Ty.canonical_of_isUnion_eq_false rfl
  | none => exact Ty.canonical_of_isUnion_eq_false rfl
  | weakNone => exact Ty.canonical_of_isUnion_eq_false rfl
  | merge _ _ h iha ihb => exact canonical_merge iha ihb _ _ h
  | mergeAll _ h ih => exact canonical_mergeAll ih _ _ h
  | weaken _ ih => exact ih.weaken
  | exclude _ h ih => exact ih.exclude h
  | withoutAbsence _ hu ih => exact (ih.of_toUnion? hu).withoutAbsence

/-- **Canonical forms are unique.** A derived union with a single member is weak, and that member is
not the null value; so derived types are equal just if they store the same members and are equally
weak, where a class and the null value store themselves, and the weak null type stores the null
value weakly. -/
theorem canonical_form {x y : Ty} (hx : Derived x) (hy : Derived y) :
    (∀ u m, x.toUnion? = some u → u.members = [m] → u.weak = true ∧ m ≠ .none) ∧
    ((x == y) = true ↔ x.contents.weak = y.contents.weak ∧
      ∀ m, m ∈ x.contents.members ↔ m ∈ y.contents.members) := by
  have hcx : x.Canonical := hx.canonical
  have hcy : y.Canonical := hy.canonical
  constructor
  · intro u m hu hm
    have hcu : (Ty.union u).Canonical := hcx.of_toUnion? hu
    exact (Ty.canonical_union_iff hcu.wellFormed).mp hcu m hm
  · rw [← Ty.outline_eq_iff hcx.wellFormed hcy.wellFormed]
    constructor
    · intro h
      refine ⟨Bool.eq_iff_iff.mpr (iff_of_eq (congrArg Outline.weak h)), ?_⟩
      exact Set.ext_iff.mp (congrArg Outline.members h)
    · rintro ⟨hweak, hmembers⟩
      refine hcx.tight.ext hcy.tight (Set.ext hmembers) ?_
      show (x.contents.weak = true) = (y.contents.weak = true)
      rw [hweak]

/-- The weak null type joined to a class, and the class joined to a null value that was weakened by
absence. Of the first, a context that accepts classes alone leaves the weak null type. -/
theorem canonical_form_of_null :
    let x : Ty := .union ⟨[.cls Class.Builtin.int, .none], true⟩
    let y : Ty := .union ⟨[.none, .cls Class.Builtin.int], true⟩
    Derived x ∧ Derived y ∧ (x == y) = true ∧ Derived .weakNone ∧ (Ty.weakNone == x) = false := by
  intro x y
  have hvx : (UnionTypes.mergeAll [some (.cls Class.Builtin.int), some .weakNone]).value {} =
      some x := rfl
  have hvy : (UnionTypes.mergeAll
      [some .none, Option.none, some (.cls Class.Builtin.int)]).value {} = some y := rfl
  have hleft : (x.exclude (some .none)
      { accepts := fun _ actual => (actual.bind Ty.toClass?).isSome }).value {} = some .weakNone :=
    rfl
  have hx : Derived x := .mergeAll (by simp [Derived.cls, Derived.weakNone]) hvx
  have hy : Derived y := .mergeAll (by simp [Derived.cls, Derived.none]) hvy
  have hnull : Derived .weakNone := .exclude hx hleft
  refine ⟨hx, hy, ?_, hnull, ?_⟩
  · refine (canonical_form hx hy).2.mpr ⟨rfl, fun m => ?_⟩
    exact (List.Perm.swap _ _ _).mem_iff
  · rw [← Bool.not_eq_true, (canonical_form hnull hx).2]
    rintro ⟨-, hmembers⟩
    have hmem := (hmembers (.cls Class.Builtin.int)).mpr List.mem_cons_self
    cases List.mem_singleton.mp hmem

end Derived

end UnionTypes
