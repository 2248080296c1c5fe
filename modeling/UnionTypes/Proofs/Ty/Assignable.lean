import UnionTypes.Class.Builtin
import UnionTypes.Proofs.Class.Lineage
import UnionTypes.Proofs.Ty.Merge
import UnionTypes.Ty.Assignable

/-!
# Structural assignability looks at the members only

`Ty.admits` takes the actual type apart and then the expected one, with a shortcut for equal types
on the way. On well-formed types all of it comes to one question about what the two types store:
does every member of the actual type find a member of the expected one that accepts it?

* **`Ty.admits_eq`** — the two recursions are one, which asks at every level whether the types are
  equal before it takes them apart;
* **`Ty.admitsSingle_eq_any`** — the expected side: some stored member accepts;
* **`Ty.admits_eq_all`** — the actual side: every stored member is accepted. Equal types need no
  shortcut, because a member accepts itself, and the weak null type is accepted just where the null
  value is, which is stored for it;
* **`Context.structural_join`** — a join stores what its operands store, so it is a least upper
  bound of assignability.
-/

namespace UnionTypes

namespace Ty

/-! ## The expected side -/

variable {e t : Ty}

theorem admitsSingle_of_toUnion? {u : Union} (he : e.toUnion? = some u) (t : Ty) :
    e.admitsSingle t = u.members.any (·.admitsSingle t) := by
  rcases toUnion?_eq_some_iff.mp he with rfl | rfl
  · rw [admitsSingle, someAdmitsSingle_eq_any]
  · rw [admitsSingle, someAdmitsSingle_eq_any]

theorem admitsSingle_eq_any (e t : Ty) :
    e.admitsSingle t = e.contents.members.any (·.admitsSingle t) := by
  cases he : e.toUnion? with
  | some u => rw [admitsSingle_of_toUnion? he, contents_of_toUnion? he]
  | none =>
    have hone : e.admitsSingle t = e.stored.admitsSingle t := by
      cases e with
      | weakNone => rw [stored, admitsSingle, admitsSingle]
      | _ => rfl
    rw [hone, contents_of_isUnion_eq_false (isUnion_eq_false_iff.mpr he)]
    simp

theorem admitsSingle_self (ht : t.toUnion? = Option.none) : t.admitsSingle t = true := by
  cases t with
  | cls c => rw [admitsSingle]; exact c.inherits_self
  | none => rw [admitsSingle]; rfl
  | weakNone => rw [admitsSingle]; rfl
  | union u => cases ht
  | dynamic u => cases ht

/-- A type that is no union is accepted by what equals it, though that is not asked. -/
theorem admitsSingle_of_beq (h : (e == t) = true) (ht : t.toUnion? = Option.none) :
    e.admitsSingle t = true := by
  rw [(beq_iff_eq_of_right ht).mp h]
  exact admitsSingle_self ht

theorem Storable.admitsSingle_self (ht : t.Storable) : t.admitsSingle t = true :=
  Ty.admitsSingle_self ht.toUnion?_eq_none

/-- The weak null type is accepted where the null value is. -/
theorem admitsSingle_stored (he : e.WellFormed) (t : Ty) :
    e.admitsSingle t.stored = e.admitsSingle t := by
  cases t with
  | weakNone =>
    rw [stored, admitsSingle_eq_any, admitsSingle_eq_any e .weakNone]
    refine Bool.eq_iff_iff.mpr ?_
    simp only [List.any_eq_true]
    refine exists_congr fun m => and_congr_right fun hm => ?_
    have hm : m.Storable := he.contents.storable m hm
    cases m with
    | cls c => simp [admitsSingle]
    | none => simp [admitsSingle, isNull]
    | _ => exact hm.elim
  | _ => rfl

/-! ## The actual side -/

theorem admits_of_isUnion_eq_false (ht : t.isUnion = false) (e : Ty) :
    e.admits t = e.admitsSingle t := by
  cases t with
  | cls c => simp [admits]
  | none => simp [admits]
  | weakNone => simp [admits]
  | union u => simp [isUnion, toUnion?] at ht
  | dynamic u => simp [isUnion, toUnion?] at ht

/-- Both recursions in one. At every level equal types are accepted first, then the actual type is
taken apart, then the expected type, and then classes and null types are left. -/
theorem admits_eq (e t : Ty) :
    e.admits t = (e == t ||
      match t.toUnion?, e.toUnion? with
      | some u, _ => u.members.all e.admits
      | Option.none, some v => v.members.any (·.admits t)
      | Option.none, Option.none =>
        match e, t with
        | .cls c, .cls d => d.inherits c
        | .cls c, _ => c.isObject
        | _, _ => e.isNull && t.isNull) := by
  cases ht : t.toUnion? with
  | some u =>
    rcases toUnion?_eq_some_iff.mp ht with rfl | rfl
    · rw [admits, admitsAll_eq_all]
    · rw [admits, admitsAll_eq_all]
  | none =>
    have hsingle : ∀ m : Ty, m.admits t = m.admitsSingle t :=
      admits_of_isUnion_eq_false (isUnion_eq_false_iff.mpr ht)
    have hask : (e == t || e.admitsSingle t) = e.admitsSingle t :=
      Bool.or_eq_right_iff_imp.mpr fun h => admitsSingle_of_beq h ht
    rw [hsingle, ← hask]
    congr 1
    cases he : e.toUnion? with
    | some v => simp only [admitsSingle_of_toUnion? he, hsingle]
    | none =>
      cases e with
      | cls c =>
        cases t with
        | cls d => rw [admitsSingle]
        | _ => rfl
      | none => rw [admitsSingle]; rfl
      | weakNone => rw [admitsSingle]; rfl
      | union v => cases he
      | dynamic v => cases he

theorem admits_of_toUnion? {u : Union} (ht : t.toUnion? = some u) (e : Ty) :
    e.admits t = (e == t || u.members.all e.admits) := by
  rw [admits_eq, ht]

theorem admits_stored (he : e.WellFormed) (ht : t.isUnion = false) :
    e.admits t.stored = e.admits t := by
  rw [admits_of_isUnion_eq_false (storable_stored ht).isUnion_eq_false, admitsSingle_stored he,
    admits_of_isUnion_eq_false ht]

theorem admits_eq_all (he : e.WellFormed) (ht : t.WellFormed) :
    e.admits t = t.contents.members.all e.admitsSingle := by
  cases hu : t.toUnion? with
  | none =>
    have hnot : t.isUnion = false := isUnion_eq_false_iff.mpr hu
    rw [admits_of_isUnion_eq_false hnot, contents_of_isUnion_eq_false hnot, List.all_cons,
      List.all_nil, Bool.and_true, admitsSingle_stored he]
  | some u =>
    have hcontents : t.contents = u := contents_of_toUnion? hu
    have hmembers : u.members.all e.admits = u.members.all e.admitsSingle := by
      refine Bool.eq_iff_iff.mpr ?_
      simp only [List.all_eq_true]
      refine forall₂_congr fun m hm => ?_
      have hm : m.Storable := ht.contents.storable m (hcontents ▸ hm)
      rw [admits_of_isUnion_eq_false hm.isUnion_eq_false]
    rw [admits_of_toUnion? hu, hmembers, hcontents, Bool.or_eq_right_iff_imp]
    -- equal types store the same members, and each of them accepts itself
    intro heq
    have hsame := ((beq_iff he ht).mp heq).2.2
    refine List.all_eq_true.mpr fun m hm => ?_
    have hmt : m ∈ t.contents.members := hcontents ▸ hm
    rw [admitsSingle_eq_any]
    exact List.any_eq_true.mpr
      ⟨m, (hsame m).mpr hmt, (ht.contents.storable m hmt).admitsSingle_self⟩

/-- What is accepted is decided by what the two types store. -/
theorem admits_iff (he : e.WellFormed) (ht : t.WellFormed) :
    e.admits t = true ↔
      ∀ m ∈ t.contents.members, ∃ n ∈ e.contents.members, n.admitsSingle m = true := by
  rw [admits_eq_all he ht, List.all_eq_true]
  refine forall₂_congr fun m _ => ?_
  rw [admitsSingle_eq_any, List.any_eq_true]

/-- A type accepts whatever stores no more than it does. -/
theorem admits_of_subset (he : e.WellFormed) (ht : t.WellFormed)
    (h : t.contents.members ⊆ e.contents.members) : e.admits t = true := by
  refine (admits_iff he ht).mpr fun m hm => ?_
  exact ⟨m, h hm, (ht.contents.storable m hm).admitsSingle_self⟩

end Ty

/-! ## Joins and weakening -/

namespace Ty

variable {a b e r : Ty}

theorem admits_join (he : e.WellFormed) (ha : a.WellFormed) (hb : b.WellFormed) (k : Collector) :
    e.admits ((a.join b).value k) = (e.admits a && e.admits b) := by
  have hjoin : IsJoin a b ((a.join b).value k) := isJoin_join ha hb k
  refine Bool.eq_iff_iff.mpr ?_
  rw [Bool.and_eq_true, admits_iff he hjoin.wellFormed, admits_iff he ha, admits_iff he hb,
    hjoin.contents]
  simp only [UnionOf.mem_merged ha.contents hb.contents]
  exact ⟨fun h => ⟨fun m hm => h m (Or.inl hm), fun m hm => h m (Or.inr hm)⟩,
    fun h m hm => hm.elim (h.1 m) (h.2 m)⟩

theorem join_admits (ha : a.WellFormed) (hb : b.WellFormed) (hr : r.isUnion = false)
    (k : Collector) : ((a.join b).value k).admits r = (a.admits r || b.admits r) := by
  have hjoin : IsJoin a b ((a.join b).value k) := isJoin_join ha hb k
  simp only [admits_of_isUnion_eq_false hr]
  refine Bool.eq_iff_iff.mpr ?_
  rw [Bool.or_eq_true, admitsSingle_eq_any, admitsSingle_eq_any a, admitsSingle_eq_any b,
    hjoin.contents]
  simp only [List.any_eq_true, UnionOf.mem_merged ha.contents hb.contents]
  constructor
  · rintro ⟨n, hn | hn, hadmits⟩
    · exact Or.inl ⟨n, hn, hadmits⟩
    · exact Or.inr ⟨n, hn, hadmits⟩
  · rintro (⟨n, hn, hadmits⟩ | ⟨n, hn, hadmits⟩)
    · exact ⟨n, Or.inl hn, hadmits⟩
    · exact ⟨n, Or.inr hn, hadmits⟩

/-- Weakening leaves the members as they are, and nothing else is looked at. -/
theorem admits_weaken (he : e.WellFormed) (ha : a.WellFormed) :
    e.admits a.weaken = e.admits a ∧ e.weaken.admits a = e.admits a := by
  constructor
  · rw [admits_eq_all he ha.weaken, admits_eq_all he ha, contents_weaken ha]
  · have hsingle : e.weaken.admitsSingle = e.admitsSingle := by
      funext m
      rw [admitsSingle_eq_any, admitsSingle_eq_any e, contents_weaken he]
    rw [admits_eq_all he.weaken ha, admits_eq_all he ha, hsingle]

end Ty

/-- **A join is the least upper bound of structural assignability**, and weakening is invisible to
it. What accepts a join accepts both operands, and the other way round; a join accepts what is no
union just if one of its operands does; and it accepts its operands. -/
theorem Context.structural_join {e e₁ e₂ a b r : Ty} (he : e.WellFormed) (he₁ : e₁.WellFormed)
    (he₂ : e₂.WellFormed) (ha : a.WellFormed) (hb : b.WellFormed) (hr : r.toUnion? = none)
    (qualifiedNames : Bool) (k : Collector) :
    let ctx := Context.structural qualifiedNames
    ctx.accepts e (some ((a.join b).value k)) =
      (ctx.accepts e (some a) && ctx.accepts e (some b)) ∧
    ctx.accepts ((e₁.join e₂).value k) (some r) =
      (ctx.accepts e₁ (some r) || ctx.accepts e₂ (some r)) ∧
    ctx.accepts ((a.join b).value k) (some a) = true ∧
    ctx.accepts ((a.join b).value k) (some b) = true ∧
    ctx.accepts e (some a.weaken) = ctx.accepts e (some a) ∧
    ctx.accepts e.weaken (some a) = ctx.accepts e (some a) := by
  intro ctx
  have hjoin : Ty.IsJoin a b ((a.join b).value k) := Ty.isJoin_join ha hb k
  have hmem : ∀ m, m ∈ ((a.join b).value k).contents.members ↔
      m ∈ a.contents.members ∨ m ∈ b.contents.members := by
    intro m
    rw [hjoin.contents]
    exact UnionOf.mem_merged ha.contents hb.contents
  refine ⟨Ty.admits_join he ha hb k, Ty.join_admits he₁ he₂ (Ty.isUnion_eq_false_iff.mpr hr) k,
    ?left, ?right, (Ty.admits_weaken he ha).1, (Ty.admits_weaken he ha).2⟩
  case left =>
    exact Ty.admits_of_subset hjoin.wellFormed ha fun m hm => (hmem m).mpr (Or.inl hm)
  case right =>
    exact Ty.admits_of_subset hjoin.wellFormed hb fun m hm => (hmem m).mpr (Or.inr hm)

/-- A weak null type joins a class, and a dynamic type joins another. The null value and a subclass
are accepted where both are. -/
theorem Context.structural_join_of_null :
    let ctx := Context.structural false
    let e : Ty := .union ⟨[.cls Class.Builtin.int, .none], false⟩
    let d : Ty := .dynamic ⟨[.cls Class.Builtin.str], true⟩
    ctx.accepts e (some ((Ty.weakNone.join (.cls Class.Builtin.bool)).value {})) = true ∧
    ctx.accepts ((d.join (.cls Class.Builtin.int)).value {}) (some (.cls Class.Builtin.bool)) =
      true := by
  intro ctx e d
  have hjoin := @Context.structural_join e d (.cls Class.Builtin.int) .weakNone
    (.cls Class.Builtin.bool) (.cls Class.Builtin.bool)
    (by decide) (by decide) (by decide) (by decide) (by decide) (by decide) false {}
  have hleft : ctx.accepts e (some .weakNone) && ctx.accepts e (some (.cls Class.Builtin.bool)) :=
    by decide
  have hright : ctx.accepts d (some (.cls Class.Builtin.bool)) ||
      ctx.accepts (.cls Class.Builtin.int) (some (.cls Class.Builtin.bool)) := by decide
  exact ⟨hjoin.1.trans hleft, hjoin.2.1.trans hright⟩

end UnionTypes
