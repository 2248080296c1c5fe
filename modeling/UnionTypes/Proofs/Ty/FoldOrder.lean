import UnionTypes.Proofs.Ty.Congruence
import UnionTypes.Proofs.Ty.Reference
import UnionTypes.Ty.Name

/-!
# The order of a merge shows in a dynamic type only

Merging the same types in another order gives an equal type, with the same names of members. What
equality does not see is whether the type is dynamic, and with it whether the word for what is not
known is shown. No merge makes a dynamic type of others, so one that comes out was an operand
(**`dynamic_mem_of_mergeAll`**), and it stores whatever the other operands do. If there is such an
operand the order decides whether it is kept (**`mergeAll_order_shows`**); if there is none, neither
the order nor anything else does (**`mergeAll_perm`**).
-/

namespace UnionTypes

/-! ## How a type is shown -/

namespace Ty

/-- The names of what the type stores, in stored order. -/
def memberNames (ctx : Context) (t : Ty) : List String := t.contents.members.map (name ctx)

/-- Whether the type is shown with the word for what is not known in front. -/
def showsUnknown : Ty → Bool
  | .union u => u.weak
  | _ => false

theorem name_eq_intercalate {t : Ty} (ht : t.WellFormed) (ctx : Context) :
    t.name ctx = separator.intercalate
      ((if t.showsUnknown then [unknownName] else []) ++ t.memberNames ctx) := by
  unfold memberNames
  cases t with
  | cls c => rfl
  | none => rfl
  | weakNone => rfl
  | union u => rw [name, names_eq_map]; rfl
  | dynamic u =>
    have hne : u.members.isEmpty = false := by simpa using ht.1.members_ne_nil
    rw [name, names_eq_map, hne]
    rfl

/-! ## Where a dynamic type comes from -/

variable {a b : Ty} {u : Union} {k : Collector}

theorem eq_dynamic_of_joinSingle {whole t : Ty} {v : Union} {first : Bool}
    (h : (joinSingle whole v t first).value k = .dynamic u) : whole = .dynamic u := by
  unfold joinSingle at h
  cases hmem : v.contains t with
  | true => simpa [hmem] using h
  | false => cases hstored : v.contains t.stored <;> simp [hmem, hstored] at h

theorem eq_dynamic_of_join (h : (a.join b).value k = .dynamic u) :
    a = .dynamic u ∨ b = .dynamic u := by
  unfold join at h
  cases hbeq : a == b with
  | true => exact Or.inl (by simpa [hbeq] using h)
  | false =>
    simp only [hbeq, Bool.false_eq_true, if_false] at h
    -- only a union that meets a single type may be returned as it is
    cases hau : a.toUnion? with
    | some v =>
      cases hbw : b.toUnion? with
      | some w => simp [hau, hbw] at h
      | none =>
        rw [hau, hbw] at h
        exact Or.inl (eq_dynamic_of_joinSingle h)
    | none =>
      cases hbw : b.toUnion? with
      | some w =>
        rw [hau, hbw] at h
        exact Or.inr (eq_dynamic_of_joinSingle h)
      | none =>
        rw [hau, hbw] at h
        cases hnull : a.isNull && b.isNull <;> simp [joinSingles, hnull] at h

theorem eq_dynamic_of_weaken (h : a.weaken = .dynamic u) : a = .dynamic u := by
  cases a <;> first | exact h | cases h

end Ty

theorem dynamic_of_merge {a b : Option Ty} {u : Union} {k : Collector}
    (h : (merge a b).value k = some (.dynamic u)) :
    a = some (.dynamic u) ∨ b = some (.dynamic u) := by
  cases a with
  | none =>
    cases b with
    | none => cases h
    | some b =>
      have hb : b.weaken = .dynamic u := Option.some.inj h
      exact Or.inr (congrArg some (Ty.eq_dynamic_of_weaken hb))
  | some a =>
    cases b with
    | none =>
      have ha : a.weaken = .dynamic u := Option.some.inj h
      exact Or.inl (congrArg some (Ty.eq_dynamic_of_weaken ha))
    | some b =>
      have hab : (a.join b).value k = .dynamic u := Option.some.inj h
      rcases Ty.eq_dynamic_of_join hab with rfl | rfl
      · exact Or.inl rfl
      · exact Or.inr rfl

/-- A merge of many is dynamic only if it is one of the operands. -/
theorem dynamic_mem_of_mergeAll {ts : List (Option Ty)} {u : Union} {k : Collector}
    (h : (mergeAll ts).value k = some (.dynamic u)) : some (.dynamic u) ∈ ts := by
  cases ts with
  | nil => cases h
  | cons o ts =>
    change (ts.foldlM merge o).value k = some (.dynamic u) at h
    -- induction on the operands still to come, for any result so far
    induction ts generalizing o k with
    | nil => exact List.mem_singleton.mpr (by simpa using h.symm)
    | cons p ts ih =>
      rw [List.foldlM_cons, WarnM.value_bind] at h
      rcases List.mem_cons.mp (ih _ h) with hmerged | hmem
      · rcases dynamic_of_merge hmerged.symm with rfl | rfl
        · exact List.mem_cons_self
        · exact List.mem_cons_of_mem _ List.mem_cons_self
      · exact List.mem_cons_of_mem _ (List.mem_cons_of_mem _ hmem)

theorem subset_of_mergeAll_dynamic {ts : List (Option Ty)} (hts : ∀ o ∈ ts, ∀ t ∈ o, t.WellFormed)
    {u : Union} {k : Collector} (h : (mergeAll ts).value k = some (.dynamic u)) {t : Ty}
    (ht : some t ∈ ts) : t.contents.members ⊆ u.members := by
  intro m hm
  exact ((contents_mergeAll hts h).1 m).mpr ⟨t, ht, hm⟩

theorem isDynamic_eq_false_of_mergeAll {ts : List (Option Ty)}
    (hts : ∀ o ∈ ts, ∀ t ∈ o, t.WellFormed)
    (hdyn : ∀ u, some (.dynamic u) ∈ ts → ∃ t, some t ∈ ts ∧ ¬ t.contents.members ⊆ u.members)
    {r : Ty} {k : Collector} (h : (mergeAll ts).value k = some r) : r.isDynamic = false := by
  cases r with
  | dynamic u =>
    obtain ⟨t, ht, hnot⟩ := hdyn u (dynamic_mem_of_mergeAll h)
    exact absurd (subset_of_mergeAll_dynamic hts h ht) hnot
  | _ => rfl

/-! ## Reordering the operands -/

theorem Outline.of_mergeAll_eq_of_perm {xs ys : List (Option Ty)} (h : xs.Perm ys)
    (hxs : ∀ o ∈ xs, ∀ t ∈ o, t.WellFormed) (k k' : Collector) :
    Outline.of ((mergeAll xs).value k) = Outline.of ((mergeAll ys).value k') := by
  rcases eq_or_ne xs [] with rfl | hxne
  · rw [h.nil_eq.symm]
    rfl
  have hyne : ys ≠ [] := by
    rintro rfl
    exact hxne h.eq_nil
  have hys : ∀ o ∈ ys, ∀ t ∈ o, t.WellFormed := fun o ho => hxs o (h.mem_iff.mpr ho)
  -- both are the least upper bound of the same outlines
  refine eq_of_forall_ge_iff fun x => ?_
  rw [Outline.of_mergeAll_le_iff hxne hxs, Outline.of_mergeAll_le_iff hyne hys]
  exact forall_congr' fun o => imp_congr_left h.mem_iff

/-- Equal types that are not dynamic are of the same variant, and shown alike but for the order of
their members. -/
theorem Ty.variant_eq_of_beq {r s : Ty} (hr : r.WellFormed) (hs : s.WellFormed)
    (h : (r == s) = true) (hrd : r.isDynamic = false) (hsd : s.isDynamic = false) :
    r.ctorIdx = s.ctorIdx ∧ r.showsUnknown = s.showsUnknown := by
  obtain ⟨hunion, hweak, -⟩ := Ty.alike_of_beq hr hs h
  cases hru : r.isUnion with
  | true =>
    rw [Ty.eq_union_contents hru hrd, Ty.eq_union_contents (hunion ▸ hru) hsd]
    exact ⟨rfl, hweak⟩
  | false =>
    obtain rfl : r = s := (Ty.beq_iff_eq_of_left (Ty.isUnion_eq_false_iff.mp hru)).mp h
    exact ⟨rfl, rfl⟩

/-- **The order of the operands changes the order of the members only, but for dynamic operands.**
Merges of the same types in two orders are both absent, or they are equal and shown by the same
names, with or without the word for what is not known. If no dynamic operand stores all that the
operands store, they are of the same variant as well, and that word is shown for both or neither. -/
theorem mergeAll_perm {xs ys : List (Option Ty)} (h : xs.Perm ys)
    (hxs : ∀ o ∈ xs, ∀ t ∈ o, t.WellFormed) (k k' : Collector) :
    ((mergeAll xs).value k = none ∧ (mergeAll ys).value k' = none) ∨
    ∃ r s, (mergeAll xs).value k = some r ∧ (mergeAll ys).value k' = some s ∧ (r == s) = true ∧
      (∀ ctx,
        r.name ctx = Ty.separator.intercalate
          ((if r.showsUnknown then [Ty.unknownName] else []) ++ r.memberNames ctx) ∧
        s.name ctx = Ty.separator.intercalate
          ((if s.showsUnknown then [Ty.unknownName] else []) ++ s.memberNames ctx) ∧
        (r.memberNames ctx).Perm (s.memberNames ctx)) ∧
      ((∀ u, some (.dynamic u) ∈ xs → ∃ t, some t ∈ xs ∧ ¬ t.contents.members ⊆ u.members) →
        r.ctorIdx = s.ctorIdx ∧ r.showsUnknown = s.showsUnknown) := by
  have hys : ∀ o ∈ ys, ∀ t ∈ o, t.WellFormed := fun o ho => hxs o (h.mem_iff.mpr ho)
  have hwx := wellFormed_mergeAll hxs k
  have hwy := wellFormed_mergeAll hys k'
  have hbeq := (Outline.of_eq_iff hwx hwy).mp (Outline.of_mergeAll_eq_of_perm h hxs k k')
  cases hr : (mergeAll xs).value k with
  | none =>
    cases hs : (mergeAll ys).value k' with
    | none => exact Or.inl ⟨rfl, rfl⟩
    | some s =>
      rw [hr, hs] at hbeq
      cases hbeq
  | some r =>
    cases hs : (mergeAll ys).value k' with
    | none =>
      rw [hr, hs] at hbeq
      cases hbeq
    | some s =>
      rw [hr, hs] at hbeq
      have hbeq : (r == s) = true := hbeq
      have hwr : r.WellFormed := hwx r hr
      have hws : s.WellFormed := hwy s hs
      refine Or.inr ⟨r, s, rfl, rfl, hbeq, fun ctx => ⟨?left, ?right, ?names⟩, fun hdyn => ?variant⟩
      case left => exact Ty.name_eq_intercalate hwr ctx
      case right => exact Ty.name_eq_intercalate hws ctx
      case names => exact (Ty.alike_of_beq hwr hws hbeq).members.map _
      case variant =>
        have hdyn' : ∀ u, some (.dynamic u) ∈ ys →
            ∃ t, some t ∈ ys ∧ ¬ t.contents.members ⊆ u.members := by
          simpa only [h.mem_iff] using hdyn
        exact Ty.variant_eq_of_beq hwr hws hbeq (isDynamic_eq_false_of_mergeAll hxs hdyn hr)
          (isDynamic_eq_false_of_mergeAll hys hdyn' hs)

/-- A dynamic class among others and absence: whatever comes first, a weak union comes out. -/
theorem mergeAll_perm_of_dynamic :
    let int : Ty := .cls Class.Builtin.int
    let str : Ty := .cls Class.Builtin.str
    let dynamic : Ty := .dynamic ⟨[int], true⟩
    let xs : List (Option Ty) := [some dynamic, none, some str]
    let ys : List (Option Ty) := [some str, some dynamic, none]
    ∃ r s, (mergeAll xs).value {} = some r ∧ (mergeAll ys).value {} = some s ∧
      (r == s) = true ∧ r.ctorIdx = s.ctorIdx ∧ r.showsUnknown = s.showsUnknown := by
  intro int str dynamic xs ys
  have hperm : xs.Perm ys := @List.perm_append_comm _ [some dynamic, none] [some str]
  have hnew : ¬ str.contents.members ⊆ [int] := by
    intro hsub
    have hmem : str ∈ [int] := hsub List.mem_cons_self
    exact absurd (Ty.cls.inj (List.mem_singleton.mp hmem)) (by decide)
  rcases mergeAll_perm hperm (by decide) {} {} with ⟨habsent, -⟩ | ⟨r, s, hr, hs, heq, -, hvariant⟩
  · cases habsent
  · refine ⟨r, s, hr, hs, heq, hvariant fun u hu => ?_⟩
    obtain rfl : u = ⟨[int], true⟩ := by simpa [xs, str, dynamic] using hu
    exact ⟨str, by simp [xs], hnew⟩

/-- A dynamic type that stores two classes, merged with these classes: if it comes first it is kept,
and if it comes last it makes the union of the others weak, which is shown differently. -/
theorem mergeAll_order_shows :
    let int : Ty := .cls Class.Builtin.int
    let str : Ty := .cls Class.Builtin.str
    let dynamic : Ty := .dynamic ⟨[int, str], true⟩
    let xs : List (Option Ty) := [some dynamic, some int, some str]
    let ys : List (Option Ty) := [some int, some str, some dynamic]
    xs.Perm ys ∧ ∃ r s, (mergeAll xs).value {} = some r ∧ (mergeAll ys).value {} = some s ∧
      r.ctorIdx ≠ s.ctorIdx ∧ r.name .plain = "int | str" ∧
        s.name .plain = "unknown | int | str" := by
  intro int str dynamic xs ys
  have hperm : xs.Perm ys := @List.perm_append_comm _ [some dynamic] [some int, some str]
  exact ⟨hperm, dynamic, .union ⟨[int, str], true⟩, rfl, rfl, by decide, by decide, by decide⟩

end UnionTypes
