import UnionTypes.Class.Builtin
import UnionTypes.Proofs.Class.Lineage
import UnionTypes.Proofs.Class.Resolve
import UnionTypes.Proofs.Ty.Validity

/-!
# What is inherited

A class that inherits from another one, the top class apart, has that class in its lineage, and with
it the whole lineage of that class (`Class.mem_lineage_trans`). Search, completion and the check for
validity are all about the lineage: so what is declared there is declared for the heir
(**`Class.declaration?_ne_none_of_mem_lineage`**), and an heir that passes the check has checked it.

The top class is apart because every class inherits from it without having it in its tree.
-/

namespace UnionTypes.Class

variable {a b c : Class} {name : String}

theorem declaration?_ne_none_of_mem_lineage (hb : b ∈ a.lineage)
    (hname : b.declaration? name ≠ none) : a.declaration? name ≠ none := by
  rw [ne_eq, declaration?_eq_none_iff] at hname ⊢
  intro hnone
  exact hname fun d hd => hnone d (mem_lineage_trans hb hd)

/-- A name that is declared anywhere in the tree can be read, and there is one answer. -/
theorem exists_resolve_read (hname : c.declaration? name ≠ none) :
    ∃ r, c.resolve name .read = some [r] ∧ r.member.name = name := by
  obtain ⟨⟨owner, x⟩, hdecl⟩ := Option.ne_none_iff_exists'.mp hname
  obtain ⟨passed, hfirst⟩ := declaration?_eq_some_iff.mp hdecl
  have hanswer := resolve_eq c name .read
  simp only [hdecl, Attribute.permits_read, if_true] at hanswer
  exact ⟨_, hanswer, hfirst.name_eq⟩

/-- An answer is an answer by a declaration. -/
theorem declaration?_ne_none_of_mem_resolve {r : Resolution}
    (hr : r ∈ (c.resolve name .read).getD []) : c.declaration? name ≠ none := by
  intro hnone
  rw [resolve_read, hnone] at hr
  cases hr

section

variable (hb : b ∈ a.lineage)

include hb

theorem exists_resolve_of_mem_lineage {r : Resolution}
    (hr : r ∈ (b.resolve name .read).getD []) :
    ∃ r, a.resolve name .read = some [r] ∧ r.member.name = name :=
  exists_resolve_read
    (declaration?_ne_none_of_mem_lineage hb (declaration?_ne_none_of_mem_resolve hr))

/-- What the heir offers under the name may be another member, which shadows the inherited one. -/
theorem exists_mem_complete_of_mem_lineage {stem : String} {m : Member} (hm : m ∈ b.complete stem) :
    ∃ n ∈ a.complete stem, n.name = m.name := by
  obtain ⟨hstem, r, hr, -⟩ := (b.mem_complete_iff stem m).mp hm
  obtain ⟨r, hanswer, hname⟩ := exists_resolve_of_mem_lineage hb hr
  refine ⟨r.member, (a.mem_complete_iff stem r.member).mpr ⟨?_, r, ?_, rfl⟩, hname⟩
  · rwa [hname]
  · rw [hname, hanswer]
    exact List.mem_singleton_self r

theorem validate_of_mem_lineage {message : String} {k k' : Collector}
    (ha : WarnM.value (a.validate message).run k = .ok ()) :
    WarnM.value (b.validate message).run k' = .ok () := by
  rw [value_validate_eq_ok_iff] at ha ⊢
  exact fun d hd => ha d (mem_lineage_trans hb hd)

end

/-- **To inherit is to have in the tree, and it is monotone for queries.** No two classes inherit
from each other, the top class apart. What can be read on a class can be read, with one answer, on
all that inherit from it; they complete all the names that it completes; and it passes the check if
one of them does. -/
theorem inherits_monotone (a b : Class) :
    (a.inherits b = true ↔ b.isObject = true ∨ ∃ c ∈ a.lineage, c = b) ∧
    (a.isObject = false → b.isObject = false →
      a.inherits b = true → b.inherits a = true → a = b) ∧
    (b.isObject = false → a.inherits b = true →
      (∀ name answers, b.resolve name .read = some answers → answers ≠ [] →
        ∃ r, a.resolve name .read = some [r] ∧ r.member.name = name) ∧
      (∀ stem, ∀ m ∈ b.complete stem, ∃ n ∈ a.complete stem, n.name = m.name) ∧
      ∀ message k k', WarnM.value (a.validate message).run k = .ok () →
        WarnM.value (b.validate message).run k' = .ok ()) := by
  have hmem : ∀ {c d : Class}, d.isObject = false → c.inherits d = true → d ∈ c.lineage := by
    intro c d hd hinherits
    refine (inherits_iff.mp hinherits).resolve_left ?_
    rw [hd]
    exact Bool.false_ne_true
  refine ⟨?tree, ?antisymm, ?queries⟩
  case tree => rw [inherits_iff, exists_eq_right]
  case antisymm =>
    intro ha hb hab hba
    exact eq_of_mem_lineage_of_mem_lineage (hmem hb hab) (hmem ha hba)
  case queries =>
    intro hb hab
    have hlineage : b ∈ a.lineage := hmem hb hab
    refine ⟨?_, fun stem m => exists_mem_complete_of_mem_lineage hlineage,
      fun message k k' => validate_of_mem_lineage hlineage⟩
    intro name answers hanswers hne
    obtain ⟨r, hr⟩ := List.exists_mem_of_ne_nil answers hne
    refine exists_resolve_of_mem_lineage hlineage (r := r) ?_
    rwa [hanswers]

/-- A method shadows a readonly property of the same name, two levels above it. -/
theorem inherits_monotone_of_shadowed :
    let base : Class := { name := "Base", attributes := [.property "rank"] }
    let middle : Class := { name := "Middle", bases := [base] }
    let heir : Class := { name := "Heir", attributes := [.method "rank"], bases := [middle] }
    (∃ r, heir.resolve "rank" .read = some [r] ∧ r.member.name = "rank") ∧
    (∃ n ∈ heir.complete "ra", n.name = "rank") ∧
    WarnM.value (base.validate "reparse").run {} = .ok () ∧
    heir = heir.declare [] := by
  intro base middle heir
  obtain ⟨hread, hcomplete, hvalid⟩ := (inherits_monotone heir base).2.2 (by decide) (by decide)
  refine ⟨?_, ?_, hvalid "reparse" {} {} rfl, ?_⟩
  · exact hread "rank" [⟨⟨"Base", "rank", .property⟩, .normal⟩] (by decide) (by decide)
  · exact hcomplete "ra" ⟨"Base", "rank", .property⟩ (by decide)
  · exact (inherits_monotone heir (heir.declare [])).2.1 (by decide) (by decide) (by decide)
      (by decide)

/-- The top class hands nothing on to a class that does not have it in its tree. -/
example :
    let c : Class := { name := "Bare" }
    c.inherits Builtin.object = true ∧ Builtin.object.resolve "__doc__" .read ≠ some [] ∧
      c.resolve "__doc__" .read = some [] := by
  decide

end UnionTypes.Class
