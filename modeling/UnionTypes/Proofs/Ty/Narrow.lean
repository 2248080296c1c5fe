import UnionTypes.Proofs.Ty.Assignable
import UnionTypes.Ty.Narrow

/-!
# What narrowing leaves

Excluding a target from a union filters its members and merges the rest again, one by one. The
merge could reorder the members or nest them; it does neither, because the rest is still a list of
different storable types. What comes out is the smallest type that stores the rest, the
`compact` form of it:

* **`value_mergeAll_map_some`** — merging a fit list gives its compact form;
* **`value_mergeAll_none_cons`** — with the absent value in front, its compact form as a weak union;
* **`UnionOf.value_exclude`** — so excluding a target gives the compact form of what is kept.

A structural context accepts an absent value as any target, so nothing that it leaves of a union is
weak, and the members it leaves are those that the target does not accept (`Ty.remainder`). From
this **`Ty.exclude_structural`** follows: narrowing is exact, and loses nothing but the target.
-/

namespace UnionTypes

namespace UnionOf

/-- The smallest type that stores what the union stores: none for nothing, the member itself for
one member, and the union otherwise. -/
def compact (u : Union) : Option Ty :=
  match u with
  | ⟨[], _⟩ => none
  | ⟨[m], weak⟩ => some (if weak then m.weaken else m)
  | u => some (.union u)

theorem compact_of_one_lt {u : Union} (h : 1 < u.members.length) : u.compact = some (.union u) := by
  obtain ⟨members, weak⟩ := u
  match members with
  | [] => simp at h
  | [_] => simp at h
  | _ :: _ :: _ => rfl

theorem compact_eq_none_iff {u : Union} : u.compact = none ↔ u.members = [] := by
  obtain ⟨members, weak⟩ := u
  match members with
  | [] => simp [compact]
  | [_] => simp [compact]
  | _ :: _ :: _ => simp [compact]

/-- The compact form of a union stores what the union stores, and it is not dynamic. -/
theorem contents_of_compact {u : Union} (hu : Fit u.members) {t : Ty} (h : u.compact = some t) :
    t.contents = u ∧ t.isDynamic = false ∧ t.WellFormed := by
  obtain ⟨members, weak⟩ := u
  match members with
  | [] => simp [compact] at h
  | [m] =>
    have hm : m.Storable := hu.storable m List.mem_cons_self
    obtain rfl : (if weak then m.weaken else m) = t := by simpa [compact] using h
    cases weak with
    | true =>
      refine ⟨?_, ?_, hm.wellFormed.weaken⟩
      · rw [if_pos rfl, Ty.contents_weaken hm.wellFormed, Ty.contents_of_storable hm]
      · cases m <;> first | rfl | exact hm.elim
    | false => exact ⟨Ty.contents_of_storable hm, hm.isDynamic_eq_false, hm.wellFormed⟩
  | a :: b :: ms =>
    obtain rfl : Ty.union ⟨a :: b :: ms, weak⟩ = t := by simpa [compact] using h
    exact ⟨rfl, rfl, hu.wellFormed (by simp)⟩

end UnionOf

/-! ## Merging what is left -/

open UnionOf (Fit)

/-- A union does not hold what could still be stored behind its members. -/
theorem UnionOf.contains_eq_false {ms : List Ty} {m : Ty} (hms : Fit (ms ++ [m])) (hne : ms ≠ [])
    (weak : Bool) : ({ members := ms, weak } : Union).contains m = false := by
  obtain ⟨-, -, hnew⟩ := List.nodup_append.mp hms.nodup
  have hu : ({ members := ms, weak } : Union).WellFormed := hms.of_append.wellFormed hne
  exact Bool.eq_false_iff.mpr fun h => hnew m (hu.contains_iff.mp h) m (by simp) rfl

/-- A union that is merged with a new member has it behind the others. -/
theorem UnionOf.merged_contents_of_new {ms : List Ty} {m : Ty} (hms : Fit (ms ++ [m]))
    (hne : ms ≠ []) (weak : Bool) :
    ({ members := ms, weak } : Union).merged m.contents = { members := ms ++ [m], weak } := by
  have hm : m.Storable := hms.storable m (by simp)
  have hu : ({ members := ms, weak } : Union).WellFormed := hms.of_append.wellFormed hne
  rw [Ty.contents_of_storable hm, merged_singleton_right hu, contains_eq_false hms hne]
  simp

/-- A new member joins the compact form of a fit list behind the others. -/
theorem value_merge_compact {ms : List Ty} {m : Ty} (hms : Fit (ms ++ [m])) (hne : ms ≠ [])
    (weak : Bool) (k : Collector) :
    (merge (UnionOf.compact ⟨ms, weak⟩) (some m)).value k = UnionOf.compact ⟨ms ++ [m], weak⟩ := by
  have hm : m.Storable := hms.storable m (by simp)
  have hlong : 1 < (ms ++ [m]).length := by
    have := List.length_pos_iff.mpr hne
    simp only [List.length_append, List.length_singleton]
    omega
  cases hc : UnionOf.compact ⟨ms, weak⟩ with
  | none => exact absurd (UnionOf.compact_eq_none_iff.mp hc) hne
  | some t =>
    obtain ⟨hcontents, hdynamic, ht⟩ := UnionOf.contents_of_compact hms.of_append hc
    have hjoin : Ty.IsJoin t m ((t.join m).value k) := Ty.isJoin_join ht hm.wellFormed k
    have hstored : ((t.join m).value k).contents = ⟨ms ++ [m], weak⟩ := by
      rw [hjoin.contents, hcontents, UnionOf.merged_contents_of_new hms hne]
    -- were the result no union, it would store one thing, and it stores at least two
    have hunion : ((t.join m).value k).isUnion = true := by
      by_contra hnot
      rw [Ty.contents_of_isUnion_eq_false (Bool.eq_false_iff.mpr hnot)] at hstored
      have hone := congrArg (fun u => u.members.length) hstored
      simp only [List.length_singleton] at hone
      omega
    have hstatic : ((t.join m).value k).isDynamic = false :=
      hjoin.isDynamic_eq_false hdynamic hm.isDynamic_eq_false
    have hresult := Ty.eq_union_contents hunion hstatic
    rw [hstored] at hresult
    rw [UnionOf.compact_of_one_lt (u := ⟨ms ++ [m], weak⟩) hlong, ← hresult]
    rfl

/-- Merging the compact form of a fit list with further members gives the compact form of the whole
list. Induction on what is still to come; what was merged already grows by one member a step. -/
theorem value_foldlM_merge_compact (ms rest : List Ty) (h : Fit (ms ++ rest)) (hne : ms ≠ [])
    (weak : Bool) (k : Collector) :
    ((rest.map some).foldlM merge (UnionOf.compact ⟨ms, weak⟩)).value k =
      UnionOf.compact ⟨ms ++ rest, weak⟩ := by
  induction rest generalizing ms k with
  | nil => simp
  | cons m rest ih =>
    have hsplit : ms ++ m :: rest = (ms ++ [m]) ++ rest := by simp
    rw [hsplit] at h ⊢
    rw [List.map_cons, List.foldlM_cons, WarnM.value_bind, value_merge_compact h.of_append hne]
    exact ih _ h (by simp) _

/-- Merging the members of a fit list gives the compact form of the strong union of them. -/
theorem value_mergeAll_map_some {ms : List Ty} (h : Fit ms) (k : Collector) :
    (mergeAll (ms.map some)).value k = UnionOf.compact ⟨ms, false⟩ := by
  cases ms with
  | nil => rfl
  | cons m ms => exact value_foldlM_merge_compact [m] ms h (by simp) false k

/-- With the absent value in front, it is the compact form of the weak union of them: the first
member is weakened, and what is weak stays weak. -/
theorem value_mergeAll_none_cons {ms : List Ty} (h : Fit ms) (k : Collector) :
    (mergeAll (none :: ms.map some)).value k = UnionOf.compact ⟨ms, true⟩ := by
  cases ms with
  | nil => rfl
  | cons m ms => exact value_foldlM_merge_compact [m] ms h (by simp) true k

/-! ## Excluding a target -/

namespace UnionOf

/-- The stored members that stay when the target is excluded, in their order. -/
def kept (u : Union) (target : Option Ty) (ctx : Context) : List Ty :=
  u.members.filter fun m => !ctx.drops target (some m)

/-- Whether the possibility that the value is absent stays. -/
def keepsAbsence (u : Union) (target : Option Ty) (ctx : Context) : Bool :=
  u.weak && !ctx.drops target none

theorem keepsAbsence_none (u : Union) (ctx : Context) : u.keepsAbsence none ctx = false := by
  unfold keepsAbsence
  show (u.weak && false) = false
  rw [Bool.and_false]

/-- What stays of the logical members: the absent value in front, if it stays, and what is kept. -/
theorem filter_logicalMembers (u : Union) (target : Option Ty) (ctx : Context) :
    u.logicalMembers.filter (fun m => !ctx.drops target m) =
      (if u.keepsAbsence target ctx then [none] else []) ++ (u.kept target ctx).map some := by
  unfold logicalMembers keepsAbsence kept
  rw [List.filter_append, List.filter_map]
  congr 1
  cases u.weak <;> cases hdrop : ctx.drops target none <;> simp [hdrop]

/-- What comes of an exclusion is the merge of what stays. Whether anything does matters only for
the warning. -/
theorem value_exclude_eq_mergeAll (u : Union) (target : Option Ty) (ctx : Context)
    (k : Collector) :
    (u.exclude target ctx).value k =
      (mergeAll (u.logicalMembers.filter fun m => !ctx.drops target m)).value k := by
  rw [exclude_eq]
  cases u.logicalMembers.filter fun m => !ctx.drops target m with
  | nil => rfl
  | cons m ms => rfl

/-- Excluding a target leaves the compact form of what is kept. -/
theorem value_exclude {u : Union} (hu : u.WellFormed) (target : Option Ty) (ctx : Context)
    (k : Collector) :
    (u.exclude target ctx).value k =
      compact ⟨u.kept target ctx, u.keepsAbsence target ctx⟩ := by
  have hfit : Fit (u.kept target ctx) := hu.fit.filter _
  rw [value_exclude_eq_mergeAll, filter_logicalMembers]
  cases hkeeps : u.keepsAbsence target ctx with
  | true => exact value_mergeAll_none_cons hfit k
  | false => exact value_mergeAll_map_some hfit k

theorem wellFormed_exclude {u : Union} (hu : u.WellFormed) {target : Option Ty} {ctx : Context}
    {k : Collector} {t : Ty} (h : (u.exclude target ctx).value k = some t) : t.WellFormed := by
  rw [value_exclude hu] at h
  exact (contents_of_compact (hu.fit.filter _) h).2.2

theorem WellFormed.withoutAbsence {u : Union} (hu : u.WellFormed) :
    u.withoutAbsence.WellFormed := by
  unfold UnionOf.withoutAbsence
  split
  next m => exact (hu.storable m List.mem_cons_self).wellFormed
  next => exact hu.withWeak false

end UnionOf

namespace Ty

variable {t r : Ty} {target : Option Ty} {ctx : Context} {k : Collector}

theorem exclude_of_toUnion? {u : Union} (hu : t.toUnion? = some u) (target : Option Ty)
    (ctx : Context) : t.exclude target ctx = u.exclude target ctx := by
  rw [exclude, hu]

theorem value_exclude_of_toUnion?_eq_none (ht : t.toUnion? = Option.none) (target : Option Ty)
    (ctx : Context) (k : Collector) :
    (t.exclude target ctx).value k =
      if ctx.drops target (some t) then Option.none else some t := by
  rw [exclude, ht]
  rfl

/-- If anything is left of a type that is no union, it is the type. -/
theorem eq_of_exclude (ht : t.toUnion? = Option.none)
    (h : (t.exclude target ctx).value k = some r) : t = r := by
  rw [value_exclude_of_toUnion?_eq_none ht] at h
  split at h
  · cases h
  · exact Option.some.inj h

theorem wellFormed_exclude (ht : t.WellFormed) (h : (t.exclude target ctx).value k = some r) :
    r.WellFormed := by
  cases hu : t.toUnion? with
  | some u =>
    rw [exclude_of_toUnion? hu] at h
    exact UnionOf.wellFormed_exclude (ht.of_toUnion? hu) h
  | none => exact eq_of_exclude hu h ▸ ht

end Ty

/-! ## Under a structural context -/

namespace Ty

/-- The members of the type that the target does not accept. -/
def remainder (t e : Ty) : List Ty := t.contents.members.filter fun m => !e.admits m

variable {t e r : Ty}

theorem mem_remainder {m : Ty} : m ∈ t.remainder e ↔ m ∈ t.contents.members ∧ e.admits m = false := by
  rw [remainder, List.mem_filter, Bool.not_eq_true']

theorem remainder_eq_nil_iff (he : e.WellFormed) (ht : t.WellFormed) :
    t.remainder e = [] ↔ e.admits t = true := by
  rw [admits_eq_all he ht, List.all_eq_true, List.eq_nil_iff_forall_not_mem]
  refine forall_congr' fun m => ?_
  rw [mem_remainder, not_and, Bool.not_eq_false]
  refine imp_congr_right fun hm => ?_
  rw [admits_of_isUnion_eq_false (ht.contents.storable m hm).isUnion_eq_false]

/-- Excluding a target that is present keeps the remainder, and no absence. -/
theorem value_exclude_structural {u : Union} (ht : t.WellFormed) (hu : t.toUnion? = some u)
    (e : Ty) (qualifiedNames : Bool) (k : Collector) :
    (t.exclude (some e) (Context.structural qualifiedNames)).value k =
      UnionOf.compact ⟨t.remainder e, false⟩ := by
  have hkept : u.kept (some e) (Context.structural qualifiedNames) = t.remainder e := by
    rw [remainder, contents_of_toUnion? hu]
    rfl
  have habsence : u.keepsAbsence (some e) (Context.structural qualifiedNames) = false := by
    simp [UnionOf.keepsAbsence, Context.drops, Context.structural]
  rw [exclude_of_toUnion? hu, UnionOf.value_exclude (ht.of_toUnion? hu), hkept, habsence]

theorem exclude_structural_eq_none_iff (he : e.WellFormed) (ht : t.WellFormed)
    (qualifiedNames : Bool) (k : Collector) :
    (t.exclude (some e) (Context.structural qualifiedNames)).value k = Option.none ↔
      e.admits t = true := by
  cases hu : t.toUnion? with
  | some u =>
    rw [value_exclude_structural ht hu, UnionOf.compact_eq_none_iff, remainder_eq_nil_iff he ht]
  | none =>
    rw [value_exclude_of_toUnion?_eq_none hu]
    cases hadmits : e.admits t with
    | true => simp [Context.drops, Context.structural, hadmits]
    | false => simp [Context.drops, Context.structural, hadmits]

/-- What is left stores the remainder. Of a union nothing weak is left. -/
theorem contents_of_exclude_structural (he : e.WellFormed) (ht : t.WellFormed)
    {qualifiedNames : Bool} {k : Collector}
    (h : (t.exclude (some e) (Context.structural qualifiedNames)).value k = some r) :
    r.contents.members = t.remainder e ∧ (t.isUnion = true → r.contents.weak = false) := by
  cases hu : t.toUnion? with
  | some u =>
    rw [value_exclude_structural ht hu] at h
    have hfit : Fit (t.remainder e) := ht.contents.fit.filter _
    have hcontents : r.contents = ⟨t.remainder e, false⟩ := (UnionOf.contents_of_compact hfit h).1
    rw [hcontents]
    exact ⟨rfl, fun _ => rfl⟩
  | none =>
    have hnot : t.isUnion = false := isUnion_eq_false_iff.mpr hu
    have hleft : e.admits t = false := by
      rw [← Bool.not_eq_true, ← exclude_structural_eq_none_iff he ht qualifiedNames k, h]
      simp
    have hrt : t = r := eq_of_exclude hu h
    have hstored : e.admits t.stored = false := by rwa [admits_stored he hnot]
    rw [← hrt, remainder, contents_of_isUnion_eq_false hnot]
    simp [hstored, hnot]

/-- What stores the remainder, and is no union itself, is not accepted as the target. -/
theorem admits_eq_false_of_remainder (he : e.WellFormed) (hr : r.isUnion = false)
    (hmembers : r.contents.members = t.remainder e) : e.admits r = false := by
  have hmem : r.stored ∈ t.remainder e := by
    rw [← hmembers, contents_of_isUnion_eq_false hr]
    exact List.mem_singleton_self _
  rw [← admits_stored he hr]
  exact (mem_remainder.mp hmem).2

/-- What stores the remainder accepts the type once it is joined with the target: a member is left,
or the target accepts it. -/
theorem join_admits_of_remainder (he : e.WellFormed) (ht : t.WellFormed) (hr : r.WellFormed)
    (hmembers : r.contents.members = t.remainder e) (k : Collector) :
    ((r.join e).value k).admits t = true := by
  have hjoin : IsJoin r e ((r.join e).value k) := isJoin_join hr he k
  rw [admits_eq_all hjoin.wellFormed ht, List.all_eq_true]
  intro m hm
  have hstorable : m.Storable := ht.contents.storable m hm
  have hsingle : m.isUnion = false := hstorable.isUnion_eq_false
  rw [← admits_of_isUnion_eq_false hsingle, join_admits hr he hsingle, Bool.or_eq_true]
  cases hadmits : e.admits m with
  | true => exact Or.inr rfl
  | false =>
    refine Or.inl (admits_of_subset hr hstorable.wellFormed ?_)
    rw [hmembers, contents_of_storable hstorable]
    simpa using mem_remainder.mpr ⟨hm, hadmits⟩

/-- **Narrowing under a structural context is exact and loses nothing.** Nothing is left just if
the target accepts the whole type. What is left is no part of the target, it is accepted where the
type is, and joined with the target it accepts the type; and of a union nothing weak is left. -/
theorem exclude_structural (he : e.WellFormed) (ht : t.WellFormed) (qualifiedNames : Bool)
    (k k' : Collector) :
    let ctx := Context.structural qualifiedNames
    ((t.exclude (some e) ctx).value k = Option.none ↔ ctx.accepts e (some t) = true) ∧
    ∀ r, (t.exclude (some e) ctx).value k = some r →
      (∀ u, r.toUnion? = some u → ∀ m ∈ u.members, ctx.accepts e (some m) = false) ∧
      (r.toUnion? = Option.none → ctx.accepts e (some r) = false) ∧
      ctx.accepts t (some r) = true ∧
      ctx.accepts ((r.join e).value k') (some t) = true ∧
      (∀ u, t.toUnion? = some u → r ≠ .weakNone ∧ ∀ v, r.toUnion? = some v → v.weak = false) := by
  intro ctx
  refine ⟨exclude_structural_eq_none_iff he ht qualifiedNames k, fun r h => ?_⟩
  have hr : r.WellFormed := wellFormed_exclude ht h
  obtain ⟨hmembers, hstrong⟩ := contents_of_exclude_structural he ht h
  refine ⟨?members, ?single, ?assignable, ?covers, ?strong⟩
  case members =>
    intro u hu m hm
    rw [← contents_of_toUnion? hu, hmembers] at hm
    exact (mem_remainder.mp hm).2
  case single =>
    intro hu
    exact admits_eq_false_of_remainder he (isUnion_eq_false_iff.mpr hu) hmembers
  case assignable =>
    refine admits_of_subset ht hr fun m hm => ?_
    rw [hmembers] at hm
    exact (mem_remainder.mp hm).1
  case covers => exact join_admits_of_remainder he ht hr hmembers k'
  case strong =>
    intro u hu
    have hweak : r.contents.weak = false := hstrong (isUnion_of_toUnion? hu)
    refine ⟨?_, fun v hv => contents_of_toUnion? hv ▸ hweak⟩
    rintro rfl
    simp [Ty.contents] at hweak

/-- An integer is excluded from a weak union, and a subclass of it goes too. -/
theorem exclude_structural_of_weak_union :
    let ctx := Context.structural false
    let int : Ty := .cls Class.Builtin.int
    let rest : Ty := .union ⟨[.cls Class.Builtin.str, .none], false⟩
    let t : Ty :=
      .union ⟨[.cls Class.Builtin.bool, .cls Class.Builtin.str, .cls Class.Builtin.int, .none], true⟩
    (t.exclude (some int) ctx).value {} = some rest ∧
      ctx.accepts ((rest.join int).value {}) (some t) = true := by
  intro ctx int rest t
  have hrest : (t.exclude (some int) ctx).value {} = some rest := rfl
  have hexact := @exclude_structural t int (by decide) (by decide) false {} {}
  exact ⟨hrest, (hexact.2 rest hrest).2.2.2.1⟩

end Ty

end UnionTypes
