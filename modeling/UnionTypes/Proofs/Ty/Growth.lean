import UnionTypes.Class.Builtin
import UnionTypes.Proofs.Ty.SizeCheck
import UnionTypes.Proofs.Ty.Steady

/-!
# Growth beyond the limit is reported

A merge of many checks sizes only where it builds a list, and it takes every shortcut that spares
it one. So a result above the limit could have come about without a warning, or with the same
warning twice. If no operand is above the limit by itself, neither can happen:

* **`after_merge`** — a step checks the size of what is accumulated just if something new is
  stored; where a shortcut hands on a longer list it is the operand's, which is not above the limit;
* **`pairwise_growthsFrom`**, **`after_foldlM_merge`** — so the steps that count have larger and
  larger sizes, up to the size of the result, and the run warns of those above the limit;
* **`mergeAll_reports_growth`** — both together, for the merge as a whole.
-/

namespace UnionTypes

/-! ## One step -/

/-- What an operand stores, as a union. Absence stores nothing. -/
def contentsOf : Option Ty → Union
  | none => { members := [], weak := true }
  | some t => t.contents

/-- How many members an operand stores. -/
def memberCount (o : Option Ty) : Nat := (contentsOf o).size

variable {acc o : Option Ty}

theorem fit_contentsOf (ho : ∀ t ∈ o, t.WellFormed) : UnionOf.Fit (contentsOf o).members := by
  cases o with
  | none => exact .nil
  | some t => exact (ho t rfl).contents.fit

theorem subset_contentsOf_merge (hacc : ∀ t ∈ acc, t.WellFormed) (ho : ∀ t ∈ o, t.WellFormed)
    (k : Collector) :
    (contentsOf acc).members ⊆ (contentsOf ((merge acc o).value k)).members := by
  cases acc with
  | none => exact List.nil_subset _
  | some a =>
    have ha : a.WellFormed := hacc a rfl
    cases o with
    | none =>
      show a.contents.members ⊆ a.weaken.contents.members
      rw [Ty.contents_weaken ha]
      exact List.Subset.refl _
    | some b =>
      have hb : b.WellFormed := ho b rfl
      intro m hm
      show m ∈ ((a.join b).value k).contents.members
      rw [(Ty.isJoin_join ha hb k).contents]
      exact (UnionOf.mem_merged ha.contents hb.contents).mpr (Or.inl hm)

/-- The accumulated members only grow in number, and they do just if something is stored that was
not stored before. -/
theorem memberCount_merge (hacc : ∀ t ∈ acc, t.WellFormed) (ho : ∀ t ∈ o, t.WellFormed)
    (k : Collector) :
    memberCount acc ≤ memberCount ((merge acc o).value k) ∧
    (memberCount acc < memberCount ((merge acc o).value k) ↔
      (contentsOf acc).includes (contentsOf ((merge acc o).value k)) = false) := by
  have hsub := subset_contentsOf_merge hacc ho k
  have hfit := fit_contentsOf hacc
  exact ⟨hfit.size_le_of_subset hsub,
    hfit.size_lt_iff_of_subset (fit_contentsOf (wellFormed_merge hacc ho k)) hsub⟩

theorem Collector.checkSize_of_le {k : Collector} {size : Nat} (h : size ≤ k.limit) :
    k.checkSize size = k := by
  rw [Collector.checkSize, if_neg (Nat.not_lt.mpr h)]

/-- **One step of a merge.** As long as the type that comes is not above the limit by itself,
merging it in checks the size of what comes of it just if something new is stored. -/
theorem after_merge (hacc : ∀ t ∈ acc, t.WellFormed) (ho : ∀ t ∈ o, t.WellFormed) {k : Collector}
    (hsize : memberCount o ≤ k.limit) :
    (merge acc o).after k =
      if (contentsOf acc).includes (contentsOf ((merge acc o).value k)) then k
      else k.checkSize (memberCount ((merge acc o).value k)) := by
  cases acc with
  | none =>
    cases o with
    | none => rfl
    | some t =>
      have hcount : memberCount ((merge none (some t)).value k) = memberCount (some t) := by
        show t.weaken.contents.size = t.contents.size
        rw [Ty.contents_weaken (ho t rfl)]
        rfl
      rw [hcount, Collector.checkSize_of_le hsize, ite_self]
      rfl
  | some a =>
    have ha : a.WellFormed := hacc a rfl
    cases o with
    | none =>
      have hincl : a.contents.includes a.weaken.contents = true := by
        rw [Ty.contents_weaken ha]
        exact ha.contents.includes_iff.mpr (List.Subset.refl _)
      exact (if_pos hincl).symm
    | some b =>
      have hb : b.WellFormed := ho b rfl
      have hafter : (merge (some a) (some b)).after k = (a.join b).after k := rfl
      have hnext : contentsOf ((merge (some a) (some b)).value k) =
          a.contents.merged b.contents := (Ty.isJoin_join ha hb k).contents
      rw [hafter, Ty.after_join ha hb, memberCount, hnext, UnionOf.nested]
      show _ = if a.contents.includes _ then k else _
      rw [UnionOf.includes_merged ha.contents hb.contents]
      cases hincl : a.contents.includes b.contents with
      | true => rfl
      | false =>
        cases hback : b.contents.includes a.contents with
        | false => rfl
        | true =>
          -- the type that comes holds the rest, and it is not above the limit
          have hle : (a.contents.merged b.contents).size ≤ b.contents.size :=
            UnionOf.size_merged_le_of_includes ha.contents hb.contents hback
          exact (Collector.checkSize_of_le (Nat.le_trans hle hsize)).symm

/-! ## The whole run -/

/-- The sizes to which the members grow while the types are merged one after another into what is
there already, step by step. A step that adds no member is left out. (The collector has no say in
what is merged, so any will do.) -/
def growthsFrom (acc : Option Ty) : List (Option Ty) → List Nat
  | [] => []
  | t :: ts =>
    let next := (merge acc t).value {}
    if (contentsOf acc).includes (contentsOf next) then growthsFrom next ts
    else memberCount next :: growthsFrom next ts

/-- The sizes to which the members grow while the types are merged from left to right. -/
def growths : List (Option Ty) → List Nat
  | [] => []
  | t :: ts => growthsFrom t ts

/-- The warning about a union of this size. -/
def tooLarge (size : Nat) : Warning := { reason := .unionTooLarge size }

/-- Beginning with what is there already, the sizes grow with every step that is not left out, up to
the size of what comes of the merge. Induction on the types that come. -/
theorem pairwise_growthsFrom {ts : List (Option Ty)} (hts : ∀ o ∈ ts, ∀ t ∈ o, t.WellFormed)
    (hacc : ∀ t ∈ acc, t.WellFormed) (k : Collector) :
    (memberCount acc :: growthsFrom acc ts).Pairwise (· < ·) ∧
      (memberCount acc :: growthsFrom acc ts).getLast? =
        some (memberCount ((ts.foldlM merge acc).value k)) := by
  induction ts generalizing acc k with
  | nil => simp [growthsFrom]
  | cons t ts ih =>
    obtain ⟨ht, hts⟩ := List.forall_mem_cons.mp hts
    have hnext : (merge acc t).value k = (merge acc t).value {} :=
      (steady_merge acc t).value_eq k {}
    obtain ⟨hle, hlt_iff⟩ := memberCount_merge hacc ht {}
    obtain ⟨hpairwise, hlast⟩ := ih hts (wellFormed_merge hacc ht {}) ((merge acc t).after k)
    rw [List.foldlM_cons, WarnM.value_bind, hnext, growthsFrom]
    cases hincl : (contentsOf acc).includes (contentsOf ((merge acc t).value {})) with
    | true =>
      have heq : memberCount ((merge acc t).value {}) = memberCount acc := by
        rw [hincl] at hlt_iff
        have hnot := hlt_iff.not.mpr nofun
        omega
      rw [heq] at hpairwise hlast
      exact ⟨hpairwise, hlast⟩
    | false =>
      have hlt := hlt_iff.mpr hincl
      refine ⟨List.pairwise_cons.mpr ⟨fun n hn => ?_, hpairwise⟩, ?_⟩
      · rcases List.mem_cons.mp hn with rfl | hn
        · exact hlt
        · exact Nat.lt_trans hlt ((List.pairwise_cons.mp hpairwise).1 n hn)
      · show (_ :: memberCount _ :: growthsFrom _ ts).getLast? = _
        rw [List.getLast?_cons_cons]
        exact hlast

/-- The run warns of the sizes above the limit. Induction on the types that come, for any start and
any collector; each step leaves the limit as it is. -/
theorem after_foldlM_merge {ts : List (Option Ty)} (hts : ∀ o ∈ ts, ∀ t ∈ o, t.WellFormed)
    (hacc : ∀ t ∈ acc, t.WellFormed) {k : Collector}
    (hsize : ∀ o ∈ ts, memberCount o ≤ k.limit) :
    (ts.foldlM merge acc).after k =
      k.addAll (((growthsFrom acc ts).filter (k.limit < ·)).map tooLarge) := by
  induction ts generalizing acc k with
  | nil => simp [growthsFrom]
  | cons t ts ih =>
    obtain ⟨ht, hts⟩ := List.forall_mem_cons.mp hts
    obtain ⟨hsmall, hsize⟩ := List.forall_mem_cons.mp hsize
    have hnext : (merge acc t).value k = (merge acc t).value {} :=
      (steady_merge acc t).value_eq k {}
    have hwf := wellFormed_merge hacc ht {}
    rw [List.foldlM_cons, WarnM.after_bind, after_merge hacc ht hsmall, hnext, growthsFrom]
    cases hincl : (contentsOf acc).includes (contentsOf ((merge acc t).value {})) with
    | true => exact ih hts hwf hsize
    | false =>
      simp only [Bool.false_eq_true, if_false]
      rw [Collector.checkSize_eq_addAll, ih hts hwf (by simpa using hsize),
        Collector.limit_addAll, ← Collector.addAll_append]
      congr 1
      by_cases habove : k.limit < memberCount ((merge acc t).value {})
      · simp [habove, tooLarge]
      · simp [habove]

/-- Of sizes that only grow, those above the limit end with the last one, if that is above it; and
there are none otherwise. -/
theorem filter_lt_of_pairwise {sizes : List Nat} {last : Nat} (h : sizes.Pairwise (· < ·))
    (hlast : sizes.getLast? = some last) (limit : Nat) :
    (limit < last → (sizes.filter (limit < ·)).getLast? = some last) ∧
      (last ≤ limit → sizes.filter (limit < ·) = []) := by
  obtain ⟨before, rfl⟩ := List.getLast?_eq_some_iff.mp hlast
  constructor
  · intro hlt
    simp [hlt]
  · intro hle
    refine List.filter_eq_nil_iff.mpr fun n hn => ?_
    rw [decide_eq_true_eq, Nat.not_lt]
    rcases List.mem_append.mp hn with hn | hn
    · have hlt : n < last := (List.pairwise_append.mp h).2.2 n hn last (by simp)
      omega
    · rwa [List.mem_singleton.mp hn]

/-- **Growth beyond the limit is reported, and nothing else is.** If no operand is above the limit
by itself, a merge of many adds one warning for each of its steps at which the members grew to more
than the limit, with the size they grew to. So the sizes warned of increase, the last of them is the
size of the result if that is above the limit, and if it is not there is no warning at all. -/
theorem mergeAll_reports_growth {ts : List (Option Ty)} (hts : ∀ o ∈ ts, ∀ t ∈ o, t.WellFormed)
    {k : Collector} (henabled : k.enabled = true)
    (hsize : ∀ o ∈ ts, ∀ t ∈ o, t.contents.size ≤ k.limit) :
    let result := (mergeAll ts).value k
    let reported := (growths ts).filter (k.limit < ·)
    (mergeAll ts).after k = { k with kept := k.kept ++ reported.map tooLarge } ∧
    reported.Pairwise (· < ·) ∧
    (k.limit < memberCount result → reported.getLast? = some (memberCount result)) ∧
    (memberCount result ≤ k.limit → reported = []) := by
  intro result reported
  have hcount : ∀ o ∈ ts, memberCount o ≤ k.limit := by
    intro o ho
    cases o with
    | none => exact Nat.zero_le _
    | some t => exact hsize _ ho t rfl
  cases ts with
  | nil =>
    refine ⟨?_, .nil, fun h => absurd h (Nat.not_lt_zero _), fun _ => rfl⟩
    show k = { k with kept := k.kept ++ [] }
    rw [List.append_nil]
  | cons t ts =>
    obtain ⟨ht, hts⟩ := List.forall_mem_cons.mp hts
    obtain ⟨hsmall, hcount⟩ := List.forall_mem_cons.mp hcount
    obtain ⟨hpairwise, hlast⟩ := pairwise_growthsFrom hts ht k
    -- the first operand is not above the limit, so it makes no difference among the sizes
    have hreported : reported = (memberCount t :: growthsFrom t ts).filter (k.limit < ·) := by
      rw [List.filter_cons_of_neg (by simpa using hsmall)]
      rfl
    have hafter : (mergeAll (t :: ts)).after k = k.addAll (reported.map tooLarge) :=
      after_foldlM_merge hts ht hcount
    obtain ⟨habove, hbelow⟩ := filter_lt_of_pairwise hpairwise hlast k.limit
    rw [hafter, Collector.addAll, if_pos henabled, hreported]
    exact ⟨rfl, hpairwise.filter _, habove, hbelow⟩

/-- Two members are the limit. A dynamic type of two members and the weak null type bring one new
member each; absence, and a class that is stored already, bring none. -/
theorem mergeAll_reports_growth_of_dynamic :
    let int : Ty := .cls Class.Builtin.int
    let str : Ty := .cls Class.Builtin.str
    let dynamic : Ty := .dynamic ⟨[.cls Class.Builtin.bytes, int], true⟩
    let k : Collector := { enabled := true, limit := 2, kept := [tooLarge 9] }
    (mergeAll [some int, none, some str, some dynamic, some .weakNone, some str]).after k =
      { k with kept := [tooLarge 9, tooLarge 3, tooLarge 4] } := by
  intro int str dynamic k
  have hgrowths : growths [some int, none, some str, some dynamic, some .weakNone, some str] =
      [2, 3, 4] := by decide
  have hreports := (@mergeAll_reports_growth
    [some int, none, some str, some dynamic, some .weakNone, some str] (by decide) k rfl
    (by decide)).1
  rw [hgrowths] at hreports
  exact hreports

end UnionTypes
