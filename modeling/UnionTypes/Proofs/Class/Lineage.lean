import UnionTypes.Class.Lineage

/-!
# Inheriting is being in the lineage

`Class.inherits` asks at every class of the tree whether it is the one that is sought, and lets the
top class pass at each of them. Both questions come to one:

* **`Class.inherits_iff`** — a class inherits from the top class and from the members of its
  lineage;
* **`Class.mem_lineage_trans`** — the lineage of a member lies in the lineage, so inheriting is
  transitive, but for what the top class itself inherits (`Class.inherits_trans`);
* **`Class.eq_of_mem_lineage_of_mem_lineage`** — a proper member of a lineage is smaller than the
  class, so no two classes inherit from each other.
-/

namespace UnionTypes.Class

/-! ## The lineage as an order -/

theorem mem_lineage_iff {a b : Class} :
    b ∈ a.lineage ↔ b = a ∨ ∃ base ∈ a.bases, b ∈ base.lineage := by
  rw [lineage_eq, lineages_eq_flatMap, List.mem_cons, List.mem_flatMap]

/-- What a member of the lineage inherits is in the lineage as well. Induction on the tree of the
heir. -/
theorem mem_lineage_trans {a b c : Class} (hb : b ∈ a.lineage) (hc : c ∈ b.lineage) :
    c ∈ a.lineage := by
  induction a using induction_on_bases with
  | step a ih =>
    rcases mem_lineage_iff.mp hb with rfl | ⟨base, hbase, hb⟩
    · exact hc
    · exact mem_lineage_iff.mpr (Or.inr ⟨base, hbase, ih base hbase hb⟩)

theorem eq_or_sizeOf_lt_of_mem_lineage {a b : Class} (hb : b ∈ a.lineage) :
    b = a ∨ sizeOf b < sizeOf a := by
  induction a using induction_on_bases with
  | step a ih =>
    rcases mem_lineage_iff.mp hb with heq | ⟨base, hbase, hb⟩
    · exact Or.inl heq
    · have hlt : sizeOf base < sizeOf a := sizeOf_lt_of_mem_bases hbase
      rcases ih base hbase hb with rfl | hb
      · exact Or.inr hlt
      · exact Or.inr (Nat.lt_trans hb hlt)

theorem eq_of_mem_lineage_of_mem_lineage {a b : Class} (hb : b ∈ a.lineage) (ha : a ∈ b.lineage) :
    a = b := by
  rcases eq_or_sizeOf_lt_of_mem_lineage hb with heq | hba
  · exact heq.symm
  · rcases eq_or_sizeOf_lt_of_mem_lineage ha with heq | hab
    · exact heq
    · omega

/-! ## Inheriting -/

/-- A class inherits from the top class, and else from its lineage. -/
theorem inherits_iff {a b : Class} : a.inherits b = true ↔ b.isObject = true ∨ b ∈ a.lineage := by
  induction a using induction_on_bases with
  | step a ih =>
    have hbases : anyInherits a.bases b = true ↔
        ∃ base ∈ a.bases, b.isObject = true ∨ b ∈ base.lineage := by
      rw [anyInherits_eq_any, List.any_eq_true]
      exact exists_congr fun base => and_congr_right fun hbase => ih base hbase
    rw [inherits_eq, Bool.or_eq_true, Bool.or_eq_true, hbases, mem_lineage_iff, beq_iff_eq]
    constructor
    · rintro ((rfl | htop) | ⟨base, hbase, htop | hb⟩)
      · exact Or.inr (Or.inl rfl)
      · exact Or.inl htop
      · exact Or.inl htop
      · exact Or.inr (Or.inr ⟨base, hbase, hb⟩)
    · rintro (htop | rfl | ⟨base, hbase, hb⟩)
      · exact Or.inl (Or.inr htop)
      · exact Or.inl (Or.inl rfl)
      · exact Or.inr ⟨base, hbase, Or.inr hb⟩

theorem inherits_self (c : Class) : c.inherits c = true :=
  inherits_iff.mpr (Or.inr c.self_mem_lineage)

/-- A top class without bases inherits from top classes only. -/
theorem isObject_of_inherits {a b : Class} (ha : a.isObject = true) (hbases : a.bases = [])
    (hab : a.inherits b = true) : b.isObject = true := by
  rcases inherits_iff.mp hab with hb | hb
  · exact hb
  · have hone : a.lineage = [a] := by rw [lineage_eq, hbases, lineages]
    rw [hone, List.mem_singleton] at hb
    exact hb ▸ ha

/-- Every class inherits from the top class, whatever is in its tree. So what a top class inherits
is not handed on, and the class in the middle must not be a top class that has bases. -/
theorem inherits_trans {a b c : Class} (hab : a.inherits b = true) (hbc : b.inherits c = true)
    (htop : b.isObject = true → b.bases = []) : a.inherits c = true := by
  rcases inherits_iff.mp hab with hb | hb
  · exact inherits_iff.mpr (Or.inl (isObject_of_inherits hb (htop hb) hbc))
  · refine inherits_iff.mpr ((inherits_iff.mp hbc).imp_right ?_)
    exact mem_lineage_trans hb

end UnionTypes.Class
