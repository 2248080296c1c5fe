import UnionTypes.Proofs.Ty.Narrow

/-!
# Targets that are excluded one after another

Under a structural context a target decides member by member what goes, and whatever is left after
one target can be narrowed by the next. On the way the type may change its shape: a weak union
becomes a strong one, a union its last member, a dynamic type a union. `Ty.leave` says what is left
by any test of the members, in one step, and **`Ty.leave_leave`** says that two steps are one step
with both tests. So targets may be excluded one by one or all at once (**`Ty.value_excludeEach`**),
and a join of two targets, which accepts what either accepts, excludes what they exclude in any
order (**`Ty.exclude_join`**).
-/

namespace UnionTypes

namespace Ty

/-- Excludes one target after another, as long as anything is left. -/
def excludeEach (ctx : Context) (t : Ty) : List Ty → WarnM (Option Ty)
  | [] => return some t
  | e :: es => do
    match ← t.exclude (some e) ctx with
    | some r => r.excludeEach ctx es
    | Option.none => return Option.none

/-- What is left of the type if whatever passes the test goes: of a union the members that stay, in
the smallest type that stores them, and of another type all or nothing. -/
def leave (t : Ty) (goes : Ty → Bool) : Option Ty :=
  if t.isUnion then UnionOf.compact ⟨t.contents.members.filter (!goes ·), false⟩
  else if goes t then Option.none else some t

variable {t : Ty} {p q : Ty → Bool}

/-- Only types that are no unions are tested. -/
theorem leave_congr (ht : t.WellFormed) (h : ∀ m : Ty, m.isUnion = false → p m = q m) :
    t.leave p = t.leave q := by
  unfold leave
  cases hunion : t.isUnion with
  | true =>
    have hfilter : t.contents.members.filter (!p ·) = t.contents.members.filter (!q ·) :=
      List.filter_congr fun m hm => by rw [h m (ht.contents.storable m hm).isUnion_eq_false]
    simp only [if_true, hfilter]
  | false => simp only [Bool.false_eq_true, if_false, h t hunion]

theorem bind_leave_compact {ms : List Ty} (hms : UnionOf.Fit ms) (q : Ty → Bool) :
    (UnionOf.compact ⟨ms, false⟩).bind (·.leave q) =
      UnionOf.compact ⟨ms.filter (!q ·), false⟩ := by
  match ms with
  | [] => rfl
  | [m] =>
    have hm : m.isUnion = false := (hms.storable m List.mem_cons_self).isUnion_eq_false
    show m.leave q = _
    cases hq : q m with
    | true => simp [leave, hm, hq, UnionOf.compact]
    | false => simp [leave, hm, hq, UnionOf.compact]
  | a :: b :: ms => rfl

/-- What is left after two tests is what is left after both of them at once. -/
theorem leave_leave (ht : t.WellFormed) (p q : Ty → Bool) :
    (t.leave p).bind (·.leave q) = t.leave fun m => p m || q m := by
  cases hunion : t.isUnion with
  | true =>
    have hleave : ∀ r : Ty → Bool,
        t.leave r = UnionOf.compact ⟨t.contents.members.filter (!r ·), false⟩ := by
      intro r
      rw [leave, if_pos hunion]
    rw [hleave, hleave, bind_leave_compact (ht.contents.fit.filter _), List.filter_filter]
    congr 2
    refine List.filter_congr fun m _ => ?_
    rw [Bool.not_or, Bool.and_comm]
  | false =>
    cases hp : p t with
    | true => simp [leave, hunion, hp]
    | false => simp [leave, hunion, hp]

/-! ## Structural contexts -/

theorem value_exclude_eq_leave (ht : t.WellFormed) (e : Ty) (qualifiedNames : Bool)
    (k : Collector) :
    (t.exclude (some e) (Context.structural qualifiedNames)).value k = t.leave e.admits := by
  cases hu : t.toUnion? with
  | some u =>
    rw [value_exclude_structural ht hu, leave, if_pos (isUnion_of_toUnion? hu)]
    rfl
  | none =>
    rw [value_exclude_of_toUnion?_eq_none hu, leave, isUnion_eq_false_iff.mpr hu]
    rfl

/-- Excluding targets one after another leaves what none of them accepts. Induction on the targets
that are still to come, for any type that is left so far. There is at least one target, since a type
from which nothing was excluded is left in its own shape. -/
theorem value_excludeEach (ht : t.WellFormed) (e : Ty) (es : List Ty) (qualifiedNames : Bool)
    (k : Collector) :
    (t.excludeEach (Context.structural qualifiedNames) (e :: es)).value k =
      t.leave fun m => (e :: es).any (·.admits m) := by
  induction es generalizing t e k with
  | nil =>
    have hone : (fun m => [e].any (·.admits m)) = e.admits := by
      funext m
      rw [List.any_cons, List.any_nil, Bool.or_false]
    rw [hone, ← value_exclude_eq_leave ht e qualifiedNames k, excludeEach, WarnM.value_bind]
    cases (t.exclude (some e) (Context.structural qualifiedNames)).value k with
    | none => rfl
    | some r => rfl
  | cons e' es ih =>
    have hsplit : (fun m => (e :: e' :: es).any (·.admits m)) =
        fun m => e.admits m || (e' :: es).any (·.admits m) := by
      funext m
      rw [List.any_cons]
    rw [hsplit, ← leave_leave ht, ← value_exclude_eq_leave ht e qualifiedNames k, excludeEach,
      WarnM.value_bind]
    cases hr : (t.exclude (some e) (Context.structural qualifiedNames)).value k with
    | none => rfl
    | some r => exact ih (wellFormed_exclude ht hr) e' _

/-- **Structural exclusion composes.** Excluding a join of two targets and excluding the targets one
after the other leave the same: nothing at all, or the same type with the same members in the same
order. So the order of the targets does not matter, and excluding a target again changes nothing. -/
theorem exclude_join {a b : Ty} (ht : t.WellFormed) (ha : a.WellFormed) (hb : b.WellFormed)
    (qualifiedNames : Bool) (k k' : Collector) :
    let ctx := Context.structural qualifiedNames
    (t.exclude (some ((a.join b).value k)) ctx).value k = (t.excludeEach ctx [a, b]).value k' ∧
    (t.excludeEach ctx [a, b]).value k = (t.excludeEach ctx [b, a]).value k' ∧
    ∀ r, (t.exclude (some a) ctx).value k = some r → (r.exclude (some a) ctx).value k' = some r := by
  intro ctx
  refine ⟨?join, ?swap, ?again⟩
  case join =>
    rw [value_exclude_eq_leave ht, value_excludeEach ht]
    refine leave_congr ht fun m hm => ?_
    rw [join_admits ha hb hm]
    simp
  case swap =>
    rw [value_excludeEach ht, value_excludeEach ht]
    refine leave_congr ht fun m _ => ?_
    simp [Bool.or_comm]
  case again =>
    intro r hr
    have htwice := leave_leave ht a.admits a.admits
    simp only [Bool.or_self] at htwice
    have hleft : t.leave a.admits = some r := by
      rw [← value_exclude_eq_leave ht a qualifiedNames k, hr]
    rw [value_exclude_eq_leave (wellFormed_exclude ht hr)]
    rw [hleft] at htwice
    exact htwice

/-- Of a dynamic type the integers go and then the null value, or both with their join: a class is
left that is no union any more. Without the null value going, a strong union is left, from which no
more integers go. -/
theorem exclude_join_of_dynamic :
    let ctx := Context.structural false
    let int : Ty := .cls Class.Builtin.int
    let str : Ty := .cls Class.Builtin.str
    let t : Ty := .dynamic ⟨[.cls Class.Builtin.bool, .none, str, int], true⟩
    (t.exclude (some ((int.join .weakNone).value {})) ctx).value {} = some str ∧
      (t.excludeEach ctx [.weakNone, int]).value {} = some str ∧
      ((Ty.union ⟨[.none, str], false⟩).exclude (some int) ctx).value {} =
        some (.union ⟨[.none, str], false⟩) := by
  intro ctx int str t
  obtain ⟨hjoin, hswap, hagain⟩ := @exclude_join t int .weakNone (by decide) (by decide) (by decide)
    false {} {}
  have hleft : (t.excludeEach ctx [int, .weakNone]).value {} = some str := rfl
  exact ⟨hjoin.trans hleft, hswap.symm.trans hleft, hagain _ rfl⟩

end Ty

end UnionTypes
