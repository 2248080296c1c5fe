import UnionTypes.Proofs.Ty.Growth
import UnionTypes.Proofs.Ty.Narrow

/-!
# What joins and exclusions report

A size is checked inside a join, and only where a list is built. Which joins these are can be told
from the members of the operands (**`join_reports`**): those of which neither stores all that the
other stores.

An exclusion merges what it leaves one by one, so it passes through all the sizes up to the last:

* **`after_merge_compact`** — every step stores one member more, and checks the size;
* **`after_foldlM_merge_compact`** — so a run of steps checks the sizes one after the other, from
  two on: the first member is handed on as it is, or is weakened, and neither checks anything;
* **`UnionOf.exclude_reports`** — the exclusion as a whole, which has a warning of its own for the
  case that nothing is left.
-/

namespace UnionTypes

/-! ## One join -/

theorem UnionOf.nested_iff {u v : Union} (hu : u.WellFormed) (hv : v.WellFormed) :
    u.nested v = true ↔ v.members ⊆ u.members ∨ u.members ⊆ v.members := by
  rw [nested, Bool.or_eq_true, hu.includes_iff, hv.includes_iff]

open scoped Classical in
/-- **A join reports its result just if it had to build it.** It raises one warning at most, about
the size of what it returns; and it raises it if neither operand stores all that the other stores,
and the size is above the limit. Merging with absence weakens, and does nothing else. -/
theorem join_reports {a b : Ty} (ha : a.WellFormed) (hb : b.WellFormed) (k : Collector) :
    let result := (a.join b).value k
    let apart := ¬ a.contents.members ⊆ b.contents.members ∧
      ¬ b.contents.members ⊆ a.contents.members
    (a.join b).after k = k.addAll (
      if apart ∧ k.limit < result.contents.size then [tooLarge result.contents.size] else []) ∧
    ∀ o : Option Ty, merge none o = pure (weaken o) ∧ merge o none = pure (weaken o) := by
  intro result apart
  have hresult : result.contents = a.contents.merged b.contents := (Ty.isJoin_join ha hb k).contents
  have hapart : apart ↔ ¬ a.contents.nested b.contents = true := by
    rw [UnionOf.nested_iff ha.contents hb.contents, not_or, and_comm]
  refine ⟨?built, fun o => ?absent⟩
  case built =>
    rw [Ty.after_join ha hb, ← hresult]
    by_cases hnested : a.contents.nested b.contents = true
    · rw [if_pos hnested, if_neg fun h => hapart.mp h.1 hnested, Collector.addAll_nil]
    · rw [if_neg hnested, Collector.checkSize_eq_addAll]
      simp only [hapart.mpr hnested, true_and]
      rfl
  case absent => cases o <;> exact ⟨rfl, rfl⟩

/-- Of two unions that share a member neither stores the other. The two null types store the same,
so their join is not reported even if no size is allowed. -/
theorem join_reports_of_overlap :
    let int : Ty := .cls Class.Builtin.int
    let u : Ty := .union ⟨[int, .cls Class.Builtin.str], false⟩
    let v : Ty := .dynamic ⟨[.none, int], true⟩
    let k : Collector := { enabled := true, limit := 2, kept := [tooLarge 9] }
    (u.join v).after k = { k with kept := [tooLarge 9, tooLarge 3] } ∧
      (Ty.none.join .weakNone).after { k with limit := 0 } = { k with limit := 0 } := by
  intro int u v k
  have hu : u.WellFormed := by decide
  have hv : v.WellFormed := by decide
  have hapart := (UnionOf.nested_iff hu.contents hv.contents).not.mp (by decide)
  rw [not_or] at hapart
  have hbuilt := (join_reports hu hv k).1
  rw [if_pos ⟨hapart.symm, by decide⟩] at hbuilt
  have hnull := (@join_reports .none .weakNone trivial trivial { k with limit := 0 }).1
  rw [if_neg fun h => h.1.1 (List.Subset.refl _)] at hnull
  exact ⟨hbuilt, hnull⟩

/-! ## Members merged one by one -/

/-- The warnings about a list of members that grows one by one to the given size. One member alone
is not checked. -/
def growthWarnings (limit size : Nat) : List Warning :=
  ((List.range (size + 1)).filter fun n => 2 ≤ n ∧ limit < n).map tooLarge

@[simp] theorem growthWarnings_zero (limit : Nat) : growthWarnings limit 0 = [] := rfl

@[simp] theorem growthWarnings_one (limit : Nat) : growthWarnings limit 1 = [] := rfl

/-- A list of members that grows once more is checked once more. -/
theorem Collector.checkSize_addAll_growthWarnings (k : Collector) {size : Nat} (h : 1 ≤ size) :
    (k.addAll (growthWarnings k.limit size)).checkSize (size + 1) =
      k.addAll (growthWarnings k.limit (size + 1)) := by
  have hsucc : growthWarnings k.limit (size + 1) =
      growthWarnings k.limit size ++ if k.limit < size + 1 then [tooLarge (size + 1)] else [] := by
    have htwo : 2 ≤ size + 1 := by omega
    rw [growthWarnings, List.range_succ, List.filter_append, List.map_append, growthWarnings]
    congr 1
    by_cases habove : k.limit < size + 1 <;> simp [htwo, habove]
  rw [checkSize_eq_addAll, limit_addAll, hsucc, addAll_append]
  rfl

open UnionOf (Fit)

/-- A new member that joins the compact form of a fit list has the size of the whole checked. -/
theorem after_merge_compact {ms : List Ty} {m : Ty} (hms : Fit (ms ++ [m])) (hne : ms ≠ [])
    (weak : Bool) (k : Collector) :
    (merge (UnionOf.compact ⟨ms, weak⟩) (some m)).after k = k.checkSize (ms.length + 1) := by
  have hm : m.Storable := hms.storable m (by simp)
  have hu : ({ members := ms, weak } : Union).WellFormed := hms.of_append.wellFormed hne
  cases hc : UnionOf.compact ⟨ms, weak⟩ with
  | none => exact absurd (UnionOf.compact_eq_none_iff.mp hc) hne
  | some t =>
    obtain ⟨hcontents, -, ht⟩ := UnionOf.contents_of_compact hms.of_append hc
    have hnested : t.contents.nested m.contents = false := by
      rw [hcontents, UnionOf.nested_contents hu hm.isUnion_eq_false, hm.stored_eq]
      exact UnionOf.contains_eq_false hms hne weak
    have hafter : (merge (some t) (some m)).after k = (t.join m).after k := rfl
    rw [hafter, Ty.after_join ht hm.wellFormed, hnested, hcontents,
      UnionOf.merged_contents_of_new hms hne]
    simp [UnionOf.size]

/-- Merging the compact form of a fit list with further members checks the sizes that are still to
come. Induction on these members; what was reported before is what the list reported on its way. -/
theorem after_foldlM_merge_compact (ms rest : List Ty) (h : Fit (ms ++ rest)) (hne : ms ≠ [])
    (weak : Bool) (k : Collector) :
    ((rest.map some).foldlM merge (UnionOf.compact ⟨ms, weak⟩)).after
        (k.addAll (growthWarnings k.limit ms.length)) =
      k.addAll (growthWarnings k.limit (ms ++ rest).length) := by
  induction rest generalizing ms with
  | nil => simp
  | cons m rest ih =>
    have hsplit : ms ++ m :: rest = (ms ++ [m]) ++ rest := by simp
    rw [hsplit] at h ⊢
    rw [List.map_cons, List.foldlM_cons, WarnM.after_bind, value_merge_compact h.of_append hne,
      after_merge_compact h.of_append hne,
      Collector.checkSize_addAll_growthWarnings _ (List.length_pos_iff.mpr hne)]
    have hlength : (ms ++ [m]).length = ms.length + 1 := by simp
    rw [← hlength]
    exact ih _ h (by simp)

/-- A run that begins with one member has nothing reported before it. -/
theorem after_foldlM_merge_single {m : Ty} {rest : List Ty} (h : Fit (m :: rest)) (weak : Bool)
    (k : Collector) :
    ((rest.map some).foldlM merge (UnionOf.compact ⟨[m], weak⟩)).after k =
      k.addAll (growthWarnings k.limit (m :: rest).length) := by
  have hrun := after_foldlM_merge_compact [m] rest h (by simp) weak k
  rwa [List.length_singleton, growthWarnings_one, Collector.addAll_nil] at hrun

theorem after_mergeAll_map_some {ms : List Ty} (h : Fit ms) (k : Collector) :
    (mergeAll (ms.map some)).after k = k.addAll (growthWarnings k.limit ms.length) := by
  cases ms with
  | nil => simp [mergeAll]
  | cons m ms => exact after_foldlM_merge_single h false k

/-- The absent value in front is merged with the first member, and adds nothing to any size. -/
theorem after_mergeAll_none_cons {ms : List Ty} (h : Fit ms) (k : Collector) :
    (mergeAll (none :: ms.map some)).after k = k.addAll (growthWarnings k.limit ms.length) := by
  cases ms with
  | nil => simp [mergeAll]
  | cons m ms => exact after_foldlM_merge_single h true k

/-! ## Excluding a target -/

/-- **What an exclusion reports.** If nothing is left, not even the absent value, it raises one
warning, about the whole union. Otherwise it reports the sizes above the limit up to the number of
stored members that are kept, in increasing order. Of a type that is no union nothing is
reported. -/
theorem UnionOf.exclude_reports {u : Union} (hu : u.WellFormed) (target : Option Ty) (ctx : Context)
    (k : Collector) :
    (u.exclude target ctx).after k = k.addAll (
      if u.kept target ctx = [] ∧ u.keepsAbsence target ctx = false then
        [{ reason := .excludedAll u.size, typeName := some ((Ty.union u).name ctx) }]
      else growthWarnings k.limit (u.kept target ctx).length) ∧
    ∀ t : Ty, t.toUnion? = Option.none → (t.exclude target ctx).after k = k := by
  have hfit : Fit (u.kept target ctx) := hu.fit.filter _
  refine ⟨?union, fun t ht => ?single⟩
  case union =>
    rw [exclude_eq, filter_logicalMembers]
    cases hkeeps : u.keepsAbsence target ctx with
    | true => simpa using after_mergeAll_none_cons hfit k
    | false =>
      cases hkept : u.kept target ctx with
      | nil => rfl
      | cons m ms =>
        rw [hkept] at hfit
        simpa using after_mergeAll_map_some hfit k
  case single =>
    rw [Ty.exclude, ht]
    rfl

/-- Four members, the null value among them, in a weak union, and no size is allowed. An integer is
excluded under a context that accepts equal types alone; then everything that is present, where the
absent value stays; then everything. -/
theorem UnionOf.exclude_reports_of_weak :
    let int : Ty := .cls Class.Builtin.int
    let u : Union := ⟨[int, .cls Class.Builtin.str, .none, .cls Class.Builtin.bytes], true⟩
    let k : Collector := { enabled := true, limit := 0, kept := [tooLarge 9] }
    let gone : Warning :=
      { reason := .excludedAll 4, typeName := some "unknown | int | str | None | bytes" }
    (u.exclude (some int) { accepts := fun e actual => actual.any (e == ·) }).after k =
        { k with kept := [tooLarge 9, tooLarge 2, tooLarge 3] } ∧
      (u.exclude (some int) { accepts := fun _ actual => actual.isSome }).after k = k ∧
      (u.exclude (some int) { accepts := fun _ _ => true }).after k =
        { k with kept := [tooLarge 9, gone] } ∧
      (int.exclude (some int) .plain).after k = k := by
  intro int u k gone
  have hu : u.WellFormed := by decide
  have hequal := (exclude_reports hu (some int)
    { accepts := fun e actual => actual.any (e == ·) } k).1
  have hpresent := (exclude_reports hu (some int) { accepts := fun _ actual => actual.isSome } k).1
  have hall := (exclude_reports hu (some int) { accepts := fun _ _ => true } k).1
  have hsingle := (exclude_reports hu (some int) .plain k).2 int rfl
  exact ⟨hequal, hpresent, hall, hsingle⟩

end UnionTypes
