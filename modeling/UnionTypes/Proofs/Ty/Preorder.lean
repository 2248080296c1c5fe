import UnionTypes.Class.Builtin
import UnionTypes.Proofs.Ty.Assignable

/-!
# Structural assignability is a preorder

What is accepted where is settled member by member (`Ty.admits_iff`). Here the members are taken as
they stand, a type that is no union being its own only member (`Ty.parts`), and the question that
is put to two members is put without the functions that answer it (`Ty.AcceptsMember`).

* **`Ty.admits_iff_parts`** — assignability is this relation, memberwise. Neither the weak flags nor
  the equality of the two types have a part in it;
* **`Ty.AcceptsMember.trans`** — the relation is transitive because inheriting is, but for a top
  class that has bases: it accepts every class and is accepted by its bases;
* **`Context.structural_preorder`** — both carry over to types.
-/

namespace UnionTypes

namespace Ty

/-- The members of a type: what it stores, or itself if it is no union. -/
def parts (t : Ty) : List Ty :=
  match t.toUnion? with
  | some u => u.members
  | Option.none => [t]

/-- How a member comes to be accepted where another one is expected. -/
inductive AcceptsMember : (expected actual : Ty) → Prop where
  | same {n m : Ty} (h : (n == m) = true) : AcceptsMember n m
  | null {n m : Ty} (hn : n.isNull = true) (hm : m.isNull = true) : AcceptsMember n m
  | object {c : Class} {m : Ty} (hc : c.isObject = true) : AcceptsMember (.cls c) m
  | subclass {c d : Class} (h : d.inherits c = true) : AcceptsMember (.cls c) (.cls d)

/-! ## Members -/

variable {e t l m n : Ty}

theorem parts_of_toUnion? {u : Union} (ht : t.toUnion? = some u) : t.parts = u.members := by
  rw [parts, ht]

theorem parts_of_toUnion?_eq_none (ht : t.toUnion? = Option.none) : t.parts = [t] := by
  rw [parts, ht]

theorem WellFormed.toUnion?_of_mem_parts (ht : t.WellFormed) (hm : m ∈ t.parts) :
    m.toUnion? = Option.none := by
  cases hu : t.toUnion? with
  | some u =>
    rw [parts_of_toUnion? hu] at hm
    exact ((ht.of_toUnion? hu).storable m hm).toUnion?_eq_none
  | none =>
    rw [parts_of_toUnion?_eq_none hu, List.mem_singleton] at hm
    rwa [hm]

theorem admitsSingle_iff_acceptsMember (hn : n.toUnion? = Option.none)
    (hm : m.toUnion? = Option.none) : n.admitsSingle m = true ↔ n.AcceptsMember m := by
  constructor
  · intro h
    cases n with
    | cls c =>
      cases m with
      | cls d => rw [admitsSingle] at h; exact .subclass h
      | none => exact .object h
      | weakNone => exact .object h
      | union u => cases hm
      | dynamic u => cases hm
    | none => rw [admitsSingle] at h; exact .null rfl h
    | weakNone => rw [admitsSingle] at h; exact .null rfl h
    | union u => cases hn
    | dynamic u => cases hn
  · intro h
    cases h with
    | same h => exact admitsSingle_of_beq h hm
    | null hnull hmnull =>
      cases n with
      | none => rw [admitsSingle]; exact hmnull
      | weakNone => rw [admitsSingle]; exact hmnull
      | _ => cases hnull
    | object hc =>
      cases m with
      | cls d => rw [admitsSingle]; exact Class.inherits_iff.mpr (Or.inl hc)
      | none => exact hc
      | weakNone => exact hc
      | union u => cases hm
      | dynamic u => cases hm
    | subclass hmn => rw [admitsSingle]; exact hmn

theorem admits_iff_parts (he : e.WellFormed) (ht : t.WellFormed) :
    e.admits t = true ↔ ∀ m ∈ t.parts, ∃ n ∈ e.parts, n.AcceptsMember m := by
  have hactual : e.admits t = t.parts.all e.admitsSingle := by
    cases hu : t.toUnion? with
    | some u => rw [admits_eq_all he ht, contents_of_toUnion? hu, parts_of_toUnion? hu]
    | none =>
      rw [admits_of_isUnion_eq_false (isUnion_eq_false_iff.mpr hu), parts_of_toUnion?_eq_none hu]
      simp
  have hexpected : ∀ m, e.admitsSingle m = e.parts.any (·.admitsSingle m) := by
    intro m
    cases hu : e.toUnion? with
    | some u => rw [admitsSingle_of_toUnion? hu, parts_of_toUnion? hu]
    | none =>
      rw [parts_of_toUnion?_eq_none hu]
      simp
  rw [hactual, List.all_eq_true]
  refine forall₂_congr fun m hm => ?_
  rw [hexpected, List.any_eq_true]
  refine exists_congr fun n => and_congr_right fun hn => ?_
  exact admitsSingle_iff_acceptsMember (he.toUnion?_of_mem_parts hn) (ht.toUnion?_of_mem_parts hm)

/-- The middle member must not be a top class that has bases: it would accept every class, and its
bases would accept it. -/
theorem AcceptsMember.trans (hl : l.toUnion? = Option.none) (hm : m.toUnion? = Option.none)
    (htop : ∀ o, m = .cls o → o.isObject = true → o.bases = []) (hlm : l.AcceptsMember m)
    (hmn : m.AcceptsMember n) : l.AcceptsMember n := by
  cases hlm with
  | same h => rwa [(beq_iff_eq_of_left hl).mp h]
  | object hc => exact .object hc
  | null hlnull hmnull =>
    cases hmn with
    | same h => exact .null hlnull ((beq_iff_eq_of_left hm).mp h ▸ hmnull)
    | null _ hn => exact .null hlnull hn
    | object _ => cases hmnull
    | subclass _ => cases hmnull
  | @subclass c d hdc =>
    cases hmn with
    | same h => exact (beq_iff_eq_of_left hm).mp h ▸ .subclass hdc
    | null hd _ => cases hd
    | object hd => exact .object (Class.isObject_of_inherits hd (htop d rfl hd) hdc)
    | subclass hnd => exact .subclass (Class.inherits_trans hnd hdc (htop d rfl))

end Ty

/-- **Structural assignability is the memberwise relation, and a preorder.** A type is accepted just
if each of its members is accepted by some member of the expected type, so types with the same
members, weak or not, are accepted alike and accept alike. Every type accepts itself. What accepts
the type in the middle accepts whatever that one accepts, unless a top class with bases is among the
members of the type in the middle. -/
theorem Context.structural_preorder {a b c e : Ty} (ha : a.WellFormed) (hb : b.WellFormed)
    (hc : c.WellFormed) (he : e.WellFormed) (qualifiedNames : Bool) :
    let ctx := Context.structural qualifiedNames
    (ctx.accepts e (some a) = true ↔ ∀ m ∈ a.parts, ∃ n ∈ e.parts, n.AcceptsMember m) ∧
    (∀ e' a' : Ty, e'.WellFormed → a'.WellFormed → e'.parts = e.parts → a'.parts = a.parts →
      ctx.accepts e' (some a') = ctx.accepts e (some a)) ∧
    ctx.accepts a (some a) = true ∧
    ((∀ o, .cls o ∈ b.parts → o.isObject = true → o.bases = []) →
      ctx.accepts b (some a) = true → ctx.accepts c (some b) = true →
      ctx.accepts c (some a) = true) := by
  intro ctx
  refine ⟨Ty.admits_iff_parts he ha, ?flags, ?refl, ?trans⟩
  case flags =>
    intro e' a' he' ha' heparts haparts
    refine Bool.eq_iff_iff.mpr ?_
    show e'.admits a' = true ↔ e.admits a = true
    rw [Ty.admits_iff_parts he' ha', Ty.admits_iff_parts he ha, heparts, haparts]
  case refl => exact Ty.admits_of_subset ha ha fun m hm => hm
  case trans =>
    intro htop hab hbc
    have hab := (Ty.admits_iff_parts hb ha).mp hab
    have hbc := (Ty.admits_iff_parts hc hb).mp hbc
    refine (Ty.admits_iff_parts hc ha).mpr fun m hm => ?_
    obtain ⟨n, hn, hnm⟩ := hab m hm
    obtain ⟨l, hl, hln⟩ := hbc n hn
    refine ⟨l, hl, ?_⟩
    exact hln.trans (hc.toUnion?_of_mem_parts hl) (hb.toUnion?_of_mem_parts hn)
      (fun o ho => htop o (ho ▸ hn)) hnm

/-- A dynamic type is accepted by a strong union, member by member, and it is accepted by one that
holds the top class because a third union stands between them. -/
theorem Context.structural_preorder_of_object :
    let ctx := Context.structural true
    let a : Ty := .dynamic ⟨[.cls Class.Builtin.bool, .none], true⟩
    let b : Ty := .union ⟨[.none, .cls Class.Builtin.object], true⟩
    let c : Ty := .union ⟨[.cls Class.Builtin.str, .cls Class.Builtin.object], false⟩
    let e : Ty := .union ⟨[.cls Class.Builtin.int, .none], false⟩
    ctx.accepts e (some a) = true ∧ ctx.accepts a (some a) = true ∧
      ctx.accepts b (some a) = true ∧ ctx.accepts c (some b) = true ∧
      ctx.accepts c (some a) = true := by
  intro ctx a b c e
  obtain ⟨hiff, -, hself, htrans⟩ := @Context.structural_preorder a b c e
    (by decide) (by decide) (by decide) (by decide) true
  have hab : ctx.accepts b (some a) = true := by decide
  have hbc : ctx.accepts c (some b) = true := by decide
  refine ⟨hiff.mpr ?_, hself, hab, hbc, htrans ?_ hab hbc⟩
  · intro m hm
    rcases List.mem_pair.mp hm with rfl | rfl
    · exact ⟨.cls Class.Builtin.int, List.mem_pair.mpr (Or.inl rfl), .subclass (by decide)⟩
    · exact ⟨.none, List.mem_pair.mpr (Or.inr rfl), .same rfl⟩
  · intro o ho _
    rcases List.mem_pair.mp ho with hnone | htop
    · cases hnone
    · rw [Ty.cls.inj htop]
      rfl

/-- A top class that has a base would stand between any class and that base. -/
example :
    let base : Class := { name := "Base" }
    let top : Class := { name := "object", builtin := true, bases := [base] }
    let ctx := Context.structural false
    ctx.accepts (.cls top) (some (.cls Class.Builtin.int)) = true ∧
      ctx.accepts (.cls base) (some (.cls top)) = true ∧
      ctx.accepts (.cls base) (some (.cls Class.Builtin.int)) = false := by
  decide

end UnionTypes
