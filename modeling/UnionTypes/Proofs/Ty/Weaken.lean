import UnionTypes.Class.Builtin
import UnionTypes.Proofs.Ty.Narrow
import UnionTypes.Proofs.Ty.Semilattice
import UnionTypes.Proofs.Ty.Steady

/-!
# Weakening

To weaken a type is to merge it with what is absent, and nothing else. So the laws of weakening are
laws of merging, read off the outlines (`Outline.of_weaken`): it changes nothing the second time,
and it may be done to one operand of a merge, to both, or to the result. What it adds to a type is
the absence of a value alone, and excluding the null types takes that away again:

* **`Ty.value_exclude_none_weaken`** — without a target, exclusion does not see that a type was
  weakened;
* **`Ty.withoutAbsence_weaken`** — a strong type that was weakened comes back by dropping absence,
  except that a member which is alone comes back without its union.
-/

namespace UnionTypes

/-! ## Weakening and merging -/

theorem Ty.weaken_weaken (t : Ty) : t.weaken.weaken = t.weaken := by
  cases t <;> rfl

theorem weaken_weaken (a : Option Ty) : weaken (weaken a) = weaken a := by
  cases a with
  | none => rfl
  | some t => exact congrArg some t.weaken_weaken

theorem wellFormed_weaken {a : Option Ty} (ha : ∀ t ∈ a, t.WellFormed) :
    ∀ t ∈ weaken a, t.WellFormed := by
  cases a with
  | none => exact ha
  | some t =>
    rintro s ⟨rfl⟩
    exact (ha t rfl).weaken

/-- The outline of what is weakened is the join with the outline of absence. Where there is nothing
to weaken, absence is joined with itself. -/
theorem Outline.of_weaken {a : Option Ty} (ha : ∀ t ∈ a, t.WellFormed) :
    Outline.of (weaken a) = Outline.absent ⊔ Outline.of a := by
  cases a with
  | none => exact (sup_idem Outline.absent).symm
  | some t => exact Ty.outline_weaken (ha t rfl)

theorem value_merge_none_left (a : Option Ty) (k : Collector) :
    (merge none a).value k = weaken a := by
  cases a <;> rfl

/-! ## Weakening and the exclusion of null -/

/-- Without a target, exclusion merges the members that are not null, whether the union is weak or
not. -/
theorem UnionOf.value_exclude_none (u : Union) (ctx : Context) (k : Collector) :
    (u.exclude none ctx).value k =
      (mergeAll ((u.members.filter fun m => !m.isNull).map some)).value k := by
  rw [value_exclude_eq_mergeAll, filter_logicalMembers, keepsAbsence_none]
  rfl

namespace Ty

theorem value_exclude_none_weaken (t : Ty) (ctx : Context) (k k' : Collector) :
    (t.weaken.exclude Option.none ctx).value k = (t.exclude Option.none ctx).value k' := by
  rw [(t.steady_exclude Option.none ctx).value_eq k' k]
  cases t with
  | cls c => rfl
  | none => rfl
  | weakNone => rfl
  | dynamic u => rfl
  | union u =>
    have hweak : ((Ty.union u).weaken.exclude Option.none ctx).value k =
        (UnionOf.exclude { u with weak := true } Option.none ctx).value k := rfl
    have hstrong : ((Ty.union u).exclude Option.none ctx).value k =
        (u.exclude Option.none ctx).value k := rfl
    rw [hweak, hstrong, UnionOf.value_exclude_none, UnionOf.value_exclude_none]

/-- What dropping absence makes of a strong union that was weakened. -/
theorem withoutAbsence_weaken {u : Union} (hstrong : u.weak = false) :
    (Ty.union u).weaken.toUnion?.map UnionOf.withoutAbsence =
      some (match u.members with | [m] => m | _ => .union u) := by
  obtain ⟨members, weak⟩ := u
  obtain rfl : weak = false := hstrong
  match members with
  | [] => rfl
  | [_] => rfl
  | _ :: _ :: _ => rfl

end Ty

/-! ## The laws -/

/-- **The laws of weakening.** It is idempotent; a merge is weakened by weakening one operand, or
both; and to merge with what is absent is to weaken. Whatever the context, excluding the null types
from a weakened type gives what it gives from the type. And dropping absence undoes it: a class, and
a strong union of several members, come back as they were, in their order, and a strong union of one
member comes back as that member. -/
theorem weaken_laws {a b : Option Ty} (ha : ∀ t ∈ a, t.WellFormed) (hb : ∀ t ∈ b, t.WellFormed)
    (k k' : Collector) :
    weaken (weaken a) = weaken a ∧
    (weaken ((merge a b).value k) == (merge (weaken a) b).value k') = true ∧
    ((merge (weaken a) b).value k == (merge (weaken a) (weaken b)).value k') = true ∧
    (merge none a).value k = weaken a ∧
    (∀ (t : Ty) (ctx : Context),
      (t.weaken.exclude none ctx).value k = (t.exclude none ctx).value k') ∧
    (∀ c : Class, (Ty.cls c).weaken.toUnion?.map UnionOf.withoutAbsence = some (.cls c)) ∧
    (∀ u : Union, u.weak = false →
      (2 ≤ u.size → (Ty.union u).weaken.toUnion?.map UnionOf.withoutAbsence = some (.union u)) ∧
      ∀ m, u.members = [m] → (Ty.union u).weaken.toUnion?.map UnionOf.withoutAbsence = some m) := by
  have hwa : ∀ t ∈ weaken a, t.WellFormed := wellFormed_weaken ha
  have hwb : ∀ t ∈ weaken b, t.WellFormed := wellFormed_weaken hb
  have hone : ∀ k, Outline.of ((merge (weaken a) b).value k) =
      Outline.absent ⊔ Outline.of a ⊔ Outline.of b := by
    intro k
    rw [Outline.of_merge hwa hb, Outline.of_weaken ha]
  refine ⟨weaken_weaken a, ?result, ?both, value_merge_none_left a k,
    fun t ctx => t.value_exclude_none_weaken ctx k k', fun _ => rfl, ?dropped⟩
  case result =>
    have hmerge : ∀ t ∈ (merge a b).value k, t.WellFormed := wellFormed_merge ha hb k
    apply (Outline.of_eq_iff (wellFormed_weaken hmerge) (wellFormed_merge hwa hb k')).mp
    rw [Outline.of_weaken hmerge, Outline.of_merge ha hb, hone, sup_assoc]
  case both =>
    apply (Outline.of_eq_iff (wellFormed_merge hwa hb k) (wellFormed_merge hwa hwb k')).mp
    rw [hone, Outline.of_merge hwa hwb, Outline.of_weaken ha, Outline.of_weaken hb,
      ← sup_sup_distrib_left, sup_assoc]
  case dropped =>
    intro u hstrong
    rw [Ty.withoutAbsence_weaken hstrong]
    constructor
    · intro hsize
      show some (match u.members with | [m] => m | _ => .union u) = some (Ty.union u)
      split
      next m hm =>
        simp [UnionOf.size, hm] at hsize
      next => rfl
    · intro m hm
      rw [hm]

/-- An integer or the null value, merged with the null value: the weak null type comes in as a
stored null value. Excluding the null types drops that, dropping absence leaves it where it was. -/
theorem weaken_laws_of_stored_null :
    let int : Ty := .cls Class.Builtin.int
    let u : Union := ⟨[int, .none], false⟩
    (weaken ((merge (some (.union u)) (some .none)).value {}) ==
      (merge (weaken (some (.union u))) (some .none)).value {}) = true ∧
    ((merge (weaken (some (.union u))) (some .none)).value {} ==
      (merge (weaken (some (.union u))) (some .weakNone)).value {}) = true ∧
    ((Ty.union u).weaken.exclude none .plain).value {} = some int ∧
    (Ty.union u).weaken.toUnion?.map UnionOf.withoutAbsence = some (.union u) := by
  intro int u
  obtain ⟨-, hresult, hboth, -, hexclude, -, hdropped⟩ :=
    @weaken_laws (some (.union u)) (some .none) (by decide) (by decide) {} {}
  exact ⟨hresult, hboth, hexclude _ _, (hdropped u rfl).1 (by decide)⟩

end UnionTypes
