import UnionTypes.Class.Builtin
import UnionTypes.Proofs.Ty.Narrow

/-!
# Exclusion by its definition

`UnionOf.exclude` merges what is left of a union one by one, beginning with the absent value if that
is left too. `UnionOf.remnant` says what ought to come of it without any merging: the members that
stay, in stored order, in the smallest type that holds them. **`UnionOf.exclude_eq_remnant`** says
that this is what comes of it, whatever the context accepts.
-/

namespace UnionTypes

namespace UnionOf

/-- What is left of a union when the target is excluded. Without a target the null members go, and
the possibility that the value is absent goes with them; otherwise whatever the context accepts as
the target goes. That possibility is nothing by itself: if no member stays, nothing is left. -/
def remnant (u : Union) (target : Option Ty) (ctx : Context) : Option Ty :=
  let stays (m : Ty) : Bool :=
    match target with
    | none => !m.isNull
    | some e => !ctx.accepts e (some m)
  let weak : Bool :=
    match target with
    | none => false
    | some e => u.weak && !ctx.accepts e none
  match u.members.filter stays, weak with
  | [], _ => none
  | [m], false => some m
  | [.none], true => some .weakNone
  | ms, weak => some (.union { members := ms, weak })

/-- The compact form, case by case. A single member that is weakened stays a union, unless it is
the null value. -/
theorem compact_eq_match {u : Union} (hu : Fit u.members) :
    u.compact = match u.members, u.weak with
      | [], _ => none
      | [m], false => some m
      | [.none], true => some .weakNone
      | ms, weak => some (.union { members := ms, weak }) := by
  obtain ⟨members, weak⟩ := u
  match members, weak with
  | [], _ => rfl
  | [_], false => rfl
  | [m], true =>
    have hm : m.Storable := hu.storable m List.mem_cons_self
    cases m with
    | cls c => rfl
    | none => rfl
    | weakNone => exact hm.elim
    | union v => exact hm.elim
    | dynamic v => exact hm.elim
  | _ :: _ :: _, false => rfl
  | _ :: _ :: _, true => rfl

theorem compact_kept {u : Union} (hu : u.WellFormed) (target : Option Ty) (ctx : Context) :
    compact ⟨u.kept target ctx, u.keepsAbsence target ctx⟩ = u.remnant target ctx := by
  rw [compact_eq_match (hu.fit.filter _)]
  unfold remnant
  cases target with
  | none => rw [keepsAbsence_none]; rfl
  | some e => rfl

end UnionOf

/-- A type that is no union goes or stays as the union of it alone does. -/
theorem Ty.Storable.value_exclude {t : Ty} (ht : t.Storable) (target : Option Ty) (ctx : Context)
    (k k' : Collector) :
    (t.exclude target ctx).value k =
      (UnionOf.exclude { members := [t], weak := false } target ctx).value k' := by
  rw [UnionOf.value_exclude (UnionOf.wellFormed_singleton ht false),
    Ty.value_exclude_of_toUnion?_eq_none ht.toUnion?_eq_none]
  cases hdrop : ctx.drops target (some t) with
  | true => simp [UnionOf.kept, UnionOf.compact, hdrop]
  | false => simp [UnionOf.kept, UnionOf.keepsAbsence, UnionOf.compact, hdrop]

/-- **Exclusion does what its definition says**, under any context and for any target: of a union
it leaves the members that stay, in their order and in the smallest type; and a class or the null
value is treated as the strong union of it alone. -/
theorem UnionOf.exclude_eq_remnant {u : Union} (hu : u.WellFormed) (target : Option Ty)
    (ctx : Context) (k k' : Collector) :
    (u.exclude target ctx).value k = u.remnant target ctx ∧
    ∀ t : Ty, t.Storable →
      (t.exclude target ctx).value k =
        (UnionOf.exclude { members := [t], weak := false } target ctx).value k' := by
  refine ⟨?_, fun t ht => ht.value_exclude target ctx k k'⟩
  rw [value_exclude hu, compact_kept hu]

/-- A context that accepts the classes alone leaves of a weak union the null value and the absent
value, and they become the weak null type; one that accepts all that is present leaves nothing,
though the absent value would stay. -/
theorem UnionOf.exclude_eq_remnant_of_weak :
    let u : Union := ⟨[.cls Class.Builtin.int, .none], true⟩
    (u.exclude (some .none) { accepts := fun _ actual => (actual.bind Ty.toClass?).isSome }).value
      {} = some .weakNone ∧
    (u.exclude (some .none) { accepts := fun _ actual => actual.isSome }).value {} = none ∧
    (Ty.none.exclude none .plain).value {} = none := by
  intro u
  have hu : u.WellFormed := by decide
  have hclasses := (exclude_eq_remnant hu (some .none)
    { accepts := fun _ actual => (actual.bind Ty.toClass?).isSome } {} {}).1
  have hpresent := (exclude_eq_remnant hu (some .none)
    { accepts := fun _ actual => actual.isSome } {} {}).1
  have hnull := (exclude_eq_remnant hu none .plain {} {}).2 .none trivial
  exact ⟨hclasses, hpresent, hnull⟩

end UnionTypes
