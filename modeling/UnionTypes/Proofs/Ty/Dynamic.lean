import UnionTypes.Class.Builtin
import UnionTypes.Proofs.Ty.FoldOrder
import UnionTypes.Proofs.Ty.SizeCheck
import UnionTypes.Proofs.Ty.Steady
import UnionTypes.Ty.Member

/-!
# A dynamic type acts like a weak union

A dynamic type and the weak union of its members are different types, and every operation takes
them apart by a case of its own. But what the cases look at is the union inside, so they come to the
same thing:

* **`Ty.dynamic_admits`**, **`Ty.admits_dynamic`** — a structural context accepts the same where
  either is expected, and accepts either where the same is expected;
* **`Ty.join_dynamic`** — their joins are equal, and check the same sizes. The variant of the result
  can differ, because a join hands on an operand that stores the other;
* **`Ty.name_dynamic`** — only the name tells them apart: the weak union is shown like the dynamic
  type, behind the word for what is not known.

`Ty.dynamic_acts_weak` puts these together with the queries, where nothing is left to prove.
-/

namespace UnionTypes

namespace Ty

variable {s t : Ty} {u : Union}

/-- The union inside a dynamic type is made weak, and it may be weak already. -/
theorem toDynamic_of_weak (hweak : u.weak = true) : u.toDynamic = .dynamic u := by
  obtain ⟨members, weak⟩ := u
  obtain rfl : weak = true := hweak
  rfl

/-- To make a type dynamic is to weaken it, as far as equality can tell. The null types are weakened
without becoming unions, so they are left out. -/
theorem toDynamic_beq_weaken (ht : t.WellFormed) (hnull : t.isNull = false) :
    (t.toDynamic == t.weaken) = true := by
  refine (beq_iff ht.toDynamic ht.weaken).mpr ⟨?_, ?_⟩
  · rw [isUnion_toDynamic, isUnion_weaken, hnull, Bool.not_false, Bool.or_true]
  · rw [contents_toDynamic ht, contents_weaken ht]
    exact ⟨rfl, fun _ => Iff.rfl⟩

theorem dynamic_beq_union (hu : u.WellFormed) : (Ty.dynamic u == Ty.union u) = true := by
  rw [beq_eq_of_toUnion? rfl rfl]
  exact (UnionOf.beq_iff hu hu).mpr ⟨rfl, fun _ => Iff.rfl⟩

/-! ## Assignability -/

/-- Equality does not ask of which variant the other type is. -/
theorem beq_dynamic (s : Ty) (u : Union) : (s == Ty.dynamic u) = (s == Ty.union u) := by
  rw [beq_eq_same, beq_eq_same]
  cases s with
  | cls c => rfl
  | none => rfl
  | weakNone => rfl
  | union v => rw [same, same]; rfl
  | dynamic v => rw [same, same]; rfl

theorem dynamic_beq (u : Union) (s : Ty) : (Ty.dynamic u == s) = (Ty.union u == s) := by
  rw [beq_eq_same, beq_eq_same, same, same]

theorem admits_dynamic (e : Ty) (u : Union) : e.admits (.dynamic u) = e.admits (.union u) := by
  rw [admits_of_toUnion? (u := u) rfl, admits_of_toUnion? (u := u) rfl, beq_dynamic]

theorem dynamic_admits_of_isUnion_eq_false (u : Union) (ht : t.isUnion = false) :
    (Ty.dynamic u).admits t = (Ty.union u).admits t := by
  rw [admits_of_isUnion_eq_false ht, admits_of_isUnion_eq_false ht,
    admitsSingle_of_toUnion? (u := u) rfl, admitsSingle_of_toUnion? (u := u) rfl]

mutual

/-- Where the expected type is taken apart first, it makes no difference; where the actual type is,
the rest is a matter of its members. -/
theorem dynamic_admits (u : Union) :
    (t : Ty) → (Ty.dynamic u).admits t = (Ty.union u).admits t
  | .cls _ => dynamic_admits_of_isUnion_eq_false u rfl
  | .none => dynamic_admits_of_isUnion_eq_false u rfl
  | .weakNone => dynamic_admits_of_isUnion_eq_false u rfl
  | .union ⟨ms, _⟩ => by rw [admits, admits, dynamic_beq, dynamic_admitsAll u ms]
  | .dynamic ⟨ms, _⟩ => by rw [admits, admits, dynamic_beq, dynamic_admitsAll u ms]

theorem dynamic_admitsAll (u : Union) :
    (ms : List Ty) → (Ty.dynamic u).admitsAll ms = (Ty.union u).admitsAll ms
  | [] => by rw [admitsAll, admitsAll]
  | m :: ms => by rw [admitsAll, admitsAll, dynamic_admits u m, dynamic_admitsAll u ms]

end

theorem structural_accepts_dynamic (qualifiedNames : Bool) (u : Union) :
    (Context.structural qualifiedNames).accepts (.dynamic u) =
      (Context.structural qualifiedNames).accepts (.union u) := by
  funext actual
  cases actual with
  | none => rfl
  | some t => exact dynamic_admits u t

/-! ## Joins -/

theorem join_congr {a a' b b' : Ty} (ha : a.WellFormed) (ha' : a'.WellFormed) (hb : b.WellFormed)
    (hb' : b'.WellFormed) (haa : (a == a') = true) (hbb : (b == b') = true) (k k' : Collector) :
    ((a.join b).value k == (a'.join b').value k') = true := by
  -- a join is a merge of operands that are present
  have hmerge : ((merge (some a) (some b)).value k == (merge (some a') (some b')).value k') = true :=
    merge_congr (by simpa using ha) (by simpa using ha') (by simpa using hb) (by simpa using hb') haa
      hbb k k'
  exact hmerge

/-- A join looks at what its operands store before it checks a size, and a dynamic type stores what
the union does. -/
theorem join_dynamic (hu : u.WellFormed) (hweak : u.weak = true) (hs : s.WellFormed)
    (k k' : Collector) :
    (((Ty.dynamic u).join s).value k == ((Ty.union u).join s).value k') = true ∧
    ((s.join (.dynamic u)).value k == (s.join (.union u)).value k') = true ∧
    ((Ty.dynamic u).join s).after k = ((Ty.union u).join s).after k ∧
    (s.join (.dynamic u)).after k = (s.join (.union u)).after k := by
  have hd : (Ty.dynamic u).WellFormed := ⟨hu, hweak⟩
  have hw : (Ty.union u).WellFormed := hu
  have hsame : (Ty.dynamic u == Ty.union u) = true := dynamic_beq_union hu
  refine ⟨join_congr hd hw hs hs hsame hs.beq_self k k',
    join_congr hs hs hd hw hs.beq_self hsame k k', ?left, ?right⟩
  case left =>
    rw [after_join hd hs, after_join hw hs]
    rfl
  case right =>
    rw [after_join hs hd, after_join hs hw]
    rfl

/-! ## Names -/

/-- What is left of a weak union without the absence stores what the union does. -/
theorem contents_withoutAbsence (hu : u.WellFormed) :
    u.withoutAbsence.contents = { u with weak := false } ∧
      u.withoutAbsence.showsUnknown = false := by
  unfold UnionOf.withoutAbsence
  split
  next m =>
    have hm : m.Storable := hu.storable m List.mem_cons_self
    refine ⟨contents_of_storable hm, ?_⟩
    cases m <;> first | rfl | exact hm.elim
  next => exact ⟨rfl, rfl⟩

/-- A dynamic type is shown by its members, as the strong union of them is, and as the one member
is where there is one alone. The weak union of the members is shown with the word for what is not
known in front. -/
theorem name_dynamic (hu : u.WellFormed) (hweak : u.weak = true) (ctx : Context) :
    (Ty.union u).name ctx = "unknown | " ++ (Ty.dynamic u).name ctx ∧
    (Ty.dynamic u).name ctx = (Ty.union { u with weak := false }).name ctx ∧
    (Ty.dynamic u).name ctx = u.withoutAbsence.name ctx := by
  have hstrong : (Ty.union { u with weak := false }).WellFormed := hu.withWeak false
  have hd : (Ty.dynamic u).WellFormed := ⟨hu, hweak⟩
  have hw : (Ty.union u).WellFormed := hu
  have hnames : (Ty.union u).memberNames ctx ≠ [] := by
    simpa [memberNames, contents] using hu.members_ne_nil
  obtain ⟨hcontents, hshows⟩ := contents_withoutAbsence hu
  have hleft : u.withoutAbsence.memberNames ctx = (Ty.union u).memberNames ctx := by
    rw [memberNames, hcontents]
    rfl
  refine ⟨?weak, ?strong, ?left⟩
  case weak =>
    have hshown : (Ty.union u).showsUnknown = true := hweak
    rw [name_eq_intercalate hw, name_eq_intercalate hd, hshown, if_pos rfl, List.singleton_append,
      String.intercalate_cons_of_ne_nil hnames]
    rfl
  case strong =>
    rw [name_eq_intercalate hd, name_eq_intercalate hstrong]
    rfl
  case left =>
    rw [name_eq_intercalate hd, name_eq_intercalate hu.withoutAbsence, hshows, hleft]
    rfl

/-! ## All respects -/

/-- **A dynamic type acts like the weak union of its members in every respect but its name.** To
make a type dynamic is to weaken it, unless it is a null type. A weak union and the dynamic type of
it have equal joins, which check the same sizes, and are weakened to equal types; what is excluded
from either leaves the same and reports the same; a structural context accepts the same of both and
both where the same is expected; and they give the same answers to every query. The weak union is
shown like the dynamic type, which is shown like the strong union, with the word for what is not
known in front. -/
theorem dynamic_acts_weak :
    (∀ t : Ty, t.WellFormed → t.isNull = false → (t.toDynamic == t.weaken) = true) ∧
    ∀ u : Union, u.WellFormed → u.weak = true →
      let d : Ty := u.toDynamic
      let w : Ty := .union u
      (∀ s : Ty, s.WellFormed → ∀ k k',
        ((d.join s).value k == (w.join s).value k') = true ∧
        ((s.join d).value k == (s.join w).value k') = true ∧
        (d.join s).after k = (w.join s).after k ∧ (s.join d).after k = (s.join w).after k) ∧
      (d.weaken == w.weaken) = true ∧
      (∀ target ctx, d.exclude target ctx = w.exclude target ctx) ∧
      (∀ qualifiedNames,
        let ctx := Context.structural qualifiedNames
        (∀ actual, ctx.accepts d actual = ctx.accepts w actual) ∧
        ∀ e, ctx.accepts e (some d) = ctx.accepts e (some w)) ∧
      (∀ name access, d.resolve name access = w.resolve name access) ∧
      (∀ stem, d.complete stem = w.complete stem) ∧
      d.isBuiltin = w.isBuiltin ∧
      (∀ message, d.validate message = w.validate message) ∧
      ∀ ctx, w.name ctx = "unknown | " ++ d.name ctx ∧
        d.name ctx = (Ty.union { members := u.members, weak := false }).name ctx ∧
        d.name ctx = u.withoutAbsence.name ctx := by
  refine ⟨fun t ht hnull => toDynamic_beq_weaken ht hnull, fun u hu hweak => ?_⟩
  rw [toDynamic_of_weak hweak]
  intro d w
  have hd : d.WellFormed := ⟨hu, hweak⟩
  have hw : w.WellFormed := hu
  refine ⟨fun s hs k k' => join_dynamic hu hweak hs k k', ?weaken, fun _ _ => rfl, ?accepts,
    fun _ _ => ?resolve, fun _ => ?complete, ?builtin, fun _ => ?validate,
    fun ctx => name_dynamic hu hweak ctx⟩
  case weaken => exact weaken_congr hd hw (dynamic_beq_union hu)
  case accepts =>
    intro qualifiedNames
    exact ⟨fun actual => congrFun (structural_accepts_dynamic qualifiedNames u) actual,
      fun e => admits_dynamic e u⟩
  case resolve => simp only [d, w]; rw [resolve, resolve]
  case complete => simp only [d, w]; rw [complete, complete]
  case builtin => simp only [d, w]; rw [isBuiltin, isBuiltin, hweak]; rfl
  case validate => simp only [d, w]; rw [validate, validate]

/-- A class makes a dynamic type that equals the weak union of it. A dynamic type of a class and the
null value is joined with another class, has the null types excluded from it, and is shown. -/
theorem dynamic_acts_weak_of_null :
    let int : Ty := .cls Class.Builtin.int
    let str : Ty := .cls Class.Builtin.str
    let u : Union := ⟨[int, .none], true⟩
    (int.toDynamic == int.weaken) = true ∧
      ((str.join u.toDynamic).value {} == (str.join (.union u)).value {}) = true ∧
      (u.toDynamic.exclude none .plain).value {} = some int ∧
      (Ty.union u).name .plain = "unknown | " ++ u.toDynamic.name .plain ∧
      u.toDynamic.name .plain = "int | None" := by
  intro int str u
  obtain ⟨hclass, hunion⟩ := dynamic_acts_weak
  obtain ⟨hjoin, -, hexclude, -, -, -, -, -, hname⟩ := hunion u (by decide) rfl
  refine ⟨hclass int trivial rfl, (hjoin str trivial {} {}).2.1, ?_, (hname .plain).1, rfl⟩
  rw [hexclude]
  rfl

end Ty

end UnionTypes
