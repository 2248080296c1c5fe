import UnionTypes.Proofs.Class.Member
import UnionTypes.Proofs.Ty.Contents
import UnionTypes.Ty.Member

/-!
# What a type offers is what it answers for

A union gathers answers and completions from its members in two ways: answers are put behind each
other, and completions are put behind each other and freed from repetitions. As sets both are the
union over the members, so what is true of every class (`Class.mem_complete_iff`) is true of every
type: **`Ty.complete_agrees`**.
-/

namespace UnionTypes

theorem getD_pool {α : Type} (l r : Option (List α)) :
    (pool l r).getD [] = l.getD [] ++ r.getD [] := by
  cases l <;> cases r <;> simp [pool]

namespace Ty

mutual

/-- A type offers a member just if its name starts with the stem and one of the answers to the name
is this member. Whether no answer or the empty one is given makes no difference. -/
theorem mem_complete_iff (stem : String) (m : Member) :
    (t : Ty) → (m ∈ t.complete stem ↔ Class.startsWith stem m.name = true ∧
      ∃ r ∈ (t.resolve m.name .read).getD [], r.member = m)
  | .cls c => c.mem_complete_iff stem m
  | .none => Class.Builtin.noneType.mem_complete_iff stem m
  | .weakNone => Class.Builtin.noneType.mem_complete_iff stem m
  | .union ⟨ms, _⟩ => by
    rw [complete, resolve, List.mem_eraseDups]
    exact mem_completeAll_iff stem m ms
  | .dynamic ⟨ms, _⟩ => by
    rw [complete, resolve, List.mem_eraseDups]
    exact mem_completeAll_iff stem m ms

theorem mem_completeAll_iff (stem : String) (m : Member) :
    (ms : List Ty) → (m ∈ completeAll stem ms ↔ Class.startsWith stem m.name = true ∧
      ∃ r ∈ (resolveAll m.name .read ms).getD [], r.member = m)
  | [] => by simp [completeAll, resolveAll]
  | s :: ms => by
    rw [completeAll, resolveAll, List.mem_append, mem_complete_iff stem m s,
      mem_completeAll_iff stem m ms, ← and_or_left, getD_pool]
    simp only [List.mem_append, or_and_right, exists_or]

end

/-! ### Answers by what is stored -/

theorem resolveAll_eq_none_iff {name : String} {access : Access} {ms : List Ty} :
    resolveAll name access ms = Option.none ↔ ∀ m ∈ ms, m.resolve name access = Option.none := by
  induction ms with
  | nil => simp [resolveAll]
  | cons m ms ih =>
    rw [resolveAll, List.forall_mem_cons, ← ih]
    cases m.resolve name access <;> cases resolveAll name access ms <;> simp [pool]

theorem getD_resolveAll (name : String) (access : Access) (ms : List Ty) :
    (resolveAll name access ms).getD [] = ms.flatMap fun m => (m.resolve name access).getD [] := by
  induction ms with
  | nil => rfl
  | cons m ms ih => rw [resolveAll, getD_pool, ih, List.flatMap_cons]

/-- A type answers as the members that it stores do together, a union or not. -/
theorem resolve_eq_resolveAll (name : String) (access : Access) (t : Ty) :
    t.resolve name access = resolveAll name access t.contents.members := by
  have hpool : ∀ o : Option (List Resolution), pool o Option.none = o := by
    intro o
    cases o <;> rfl
  cases t with
  | cls c => exact (hpool _).symm
  | none => exact (hpool _).symm
  | weakNone => exact (hpool _).symm
  | union u => rw [resolve]; rfl
  | dynamic u => rw [resolve]; rfl

/-- It offers what one of the members that it stores does. -/
theorem mem_complete_iff_exists (stem : String) (t : Ty) (x : Member) :
    x ∈ t.complete stem ↔ ∃ m ∈ t.contents.members, x ∈ m.complete stem := by
  rw [← List.mem_flatMap, ← completeAll_eq_flatMap]
  cases t with
  | cls c => rw [contents, completeAll, completeAll, List.append_nil]
  | none => rw [contents, completeAll, completeAll, List.append_nil]
  | weakNone => rw [contents, completeAll, completeAll, List.append_nil]; rfl
  | union u => rw [complete, List.mem_eraseDups]; rfl
  | dynamic u => rw [complete, List.mem_eraseDups]; rfl

/-- A type is of the language if all it stores is; but a union that is weak, a dynamic type
included, is not. -/
theorem isBuiltin_eq {t : Ty} (ht : t.WellFormed) :
    t.isBuiltin = (!(t.isUnion && t.contents.weak) && t.contents.members.all isBuiltin) := by
  cases t with
  | cls c => simp [isBuiltin, isUnion, toUnion?, contents]
  | none => rfl
  | weakNone => rfl
  | union u => simp [isBuiltin, isUnion, toUnion?, contents, allBuiltin_eq_all]
  | dynamic u => simp [isBuiltin, isUnion, toUnion?, contents, ht.2]

theorem nodup_complete_of_toUnion?_eq_none {t : Ty} (ht : t.toUnion? = Option.none)
    (stem : String) : ((t.complete stem).map (·.name)).Nodup := by
  cases t with
  | cls c => exact c.nodup_complete stem
  | none => exact Class.Builtin.noneType.nodup_complete stem
  | weakNone => exact Class.Builtin.noneType.nodup_complete stem
  | union u => simp [toUnion?] at ht
  | dynamic u => simp [toUnion?] at ht

/-- **Completion and resolution agree.** A type offers a member for a stem just if the name starts
with the stem and reading the name is answered by a list with that member in it; and of a class or a
null type each name is offered once. -/
theorem complete_agrees (t : Ty) (stem : String) :
    (∀ m : Member, m ∈ t.complete stem ↔ stem.toList <+: m.name.toList ∧
      ∃ rs, t.resolve m.name .read = some rs ∧ ∃ r ∈ rs, r.member = m) ∧
    (t.toUnion? = Option.none → ((t.complete stem).map (·.name)).Nodup) := by
  refine ⟨fun m => ?_, fun ht => nodup_complete_of_toUnion?_eq_none ht stem⟩
  have hstem : Class.startsWith stem m.name = true ↔ stem.toList <+: m.name.toList :=
    List.isPrefixOf_iff_prefix
  rw [mem_complete_iff stem m t, hstem]
  cases t.resolve m.name .read with
  | none => simp
  | some rs => simp

/-- A class that declares a name twice, with two bases that share a base: the first attribute of the
name counts, and what is inherited along both ways is offered once. -/
theorem complete_agrees_of_diamond :
    let top : Class := { name := "Top", attributes := [.method "run", .field "rank"] }
    let c : Class := {
      name := "Bottom"
      attributes := [.field "run", .method "run"]
      bases := [{ name := "Left", bases := [top] }, { name := "Right", bases := [top] }] }
    ⟨"Top", "rank", .field⟩ ∈ (Ty.cls c).complete "r" ∧
      ⟨"Top", "run", .method⟩ ∉ (Ty.cls c).complete "r" ∧
      (((Ty.cls c).complete "r").map (·.name)).Nodup := by
  intro top c
  have hagrees := complete_agrees (.cls c) "r"
  refine ⟨?_, ?_, hagrees.2 rfl⟩
  · exact (hagrees.1 _).mpr ⟨by decide, _, rfl, _, List.mem_cons_self, rfl⟩
  · rw [hagrees.1]
    rintro ⟨-, rs, hrs, r, hr, hm⟩
    have hrun : (Ty.cls c).resolve "run" .read = some [⟨⟨"Bottom", "run", .field⟩, .normal⟩] := rfl
    rw [hrun, Option.some_inj] at hrs
    rw [← hrs, List.mem_singleton] at hr
    rw [hr] at hm
    exact absurd hm (by decide)

end Ty

end UnionTypes
