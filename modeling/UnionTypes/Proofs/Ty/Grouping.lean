import UnionTypes.Proofs.Ty.Growth
import UnionTypes.Proofs.Ty.Reference

/-!
# Flattening, however the list is grouped

A list is flattened by a loop over its types, with a union that takes them in one by one. What comes
of it can be said without the loop. Each type contributes what it stores (`Ty.contribution`), and
the union stores the contributions one behind the other, where what comes again is left out.

* **`UnionOf.insertMembers_insertMembers`** — storing what was put together elsewhere is storing it
  piece by piece;
* **`UnionOf.flatten_regroup`** — so a part of the list may be made into a union first;
* **`UnionOf.ofList_flattens`** — building a union from a list, as a whole: when it fails, what it
  stores, and what it warns of;
* **`UnionOf.ofList_agrees_mergeAll`** — merging the types one by one stores the same, but for the
  null value: the weak null type contributes nothing to a list, and stands for the null value in a
  merge.
-/

namespace UnionTypes

/-! ## What a type contributes -/

namespace Ty

/-- What the type adds to the members of a union that it is flattened into. -/
def contribution : Ty → List Ty
  | .weakNone => []
  | .union u | .dynamic u => u.members
  | t => [t]

variable {t m : Ty}

theorem storable_of_mem_contribution (ht : t.WellFormed) (hm : m ∈ t.contribution) :
    m.Storable := by
  cases t with
  | cls c => obtain rfl := List.mem_singleton.mp hm; trivial
  | none => obtain rfl := List.mem_singleton.mp hm; trivial
  | weakNone => exact absurd hm List.not_mem_nil
  | union u => exact UnionOf.WellFormed.storable (u := u) ht m hm
  | dynamic u => exact ht.1.storable m hm

/-- Only the weak null type contributes nothing. -/
theorem contribution_eq_nil_iff (ht : t.WellFormed) : t.contribution = [] ↔ t = .weakNone := by
  cases t with
  | cls c => simp [contribution]
  | none => simp [contribution]
  | weakNone => simp [contribution]
  | union u => simpa [contribution] using UnionOf.WellFormed.members_ne_nil (u := u) ht
  | dynamic u => simpa [contribution] using ht.1.members_ne_nil

/-- A type stores what it contributes. The weak null type stores the null value besides. -/
theorem mem_contents_iff :
    m ∈ t.contents.members ↔ m ∈ t.contribution ∨ t = .weakNone ∧ m = .none := by
  cases t <;> simp [contents, contribution]

/-- The weak types are the weak null type, the weak unions, and the dynamic types. -/
theorem weak_contents_iff (ht : t.WellFormed) :
    t.contents.weak = true ↔
      t = .weakNone ∨ (∃ u, t = .union u ∧ u.weak = true) ∨ ∃ u, t = .dynamic u := by
  cases t with
  | dynamic u => simpa [contents] using ht.2
  | _ => simp [contents]

end Ty

namespace UnionOf

/-! ## Storing one list after another -/

theorem insertMembers_append (ms xs ys : List Ty) :
    insertMembers ms (xs ++ ys) = insertMembers (insertMembers ms xs) ys :=
  List.foldl_append

theorem mem_insertMembers {ms ts : List Ty} {m : Ty} (hts : ∀ t ∈ ts, t.Storable) :
    m ∈ insertMembers ms ts ↔ m ∈ ms ∨ m ∈ ts := by
  induction ts generalizing ms with
  | nil => simp [insertMembers]
  | cons t ts ih =>
    obtain ⟨ht, hts⟩ := List.forall_mem_cons.mp hts
    show m ∈ insertMembers (insertMember ms t) ts ↔ _
    rw [ih hts, mem_insertMember ht, or_assoc, List.mem_cons]

/-- Storing what was put together elsewhere is storing it piece by piece. Induction on the second
piece; a type that the first piece has already is stored by then in both ways. -/
theorem insertMembers_insertMembers {ms xs ys : List Ty} (hxs : ∀ t ∈ xs, t.Storable)
    (hys : ∀ t ∈ ys, t.Storable) :
    insertMembers ms (insertMembers xs ys) = insertMembers (insertMembers ms xs) ys := by
  induction ys generalizing xs with
  | nil => rfl
  | cons t ys ih =>
    obtain ⟨ht, hys⟩ := List.forall_mem_cons.mp hys
    have hstep : insertMembers ms (insertMember xs t) = insertMember (insertMembers ms xs) t := by
      by_cases hmem : t ∈ xs
      · rw [insertMember_of_mem ht hmem,
          insertMember_of_mem ht ((mem_insertMembers hxs).mpr (Or.inr hmem))]
      · rw [insertMember_of_not_mem ht hmem, insertMembers_append]
        rfl
    have hxt : ∀ s ∈ insertMember xs t, s.Storable := by
      intro s hs
      rcases (mem_insertMember ht).mp hs with hs | rfl
      · exact hxs s hs
      · exact ht
    show insertMembers ms (insertMembers (insertMember xs t) ys) =
      insertMembers (insertMember (insertMembers ms xs) t) ys
    rw [ih hxt hys, hstep]

theorem insertMembers_nil_eq_eraseDups {ts : List Ty} (hts : ∀ t ∈ ts, t.Storable) :
    insertMembers [] ts = ts.eraseDups := by
  rw [insertMembers_eq_append_eraseDups hts]
  simp

/-! ## What flattening comes to -/

variable {ts : List Ty} {weak : Bool}

/-- A flattened list stores what its types contribute. Induction on the list, for any union it is
absorbed into. -/
theorem members_flatten (ts : List Ty) (weak : Bool) :
    (flatten ts weak).members = insertMembers [] (ts.flatMap Ty.contribution) := by
  have hfold : ∀ u : Union,
      (ts.foldl absorb u).members = insertMembers u.members (ts.flatMap Ty.contribution) := by
    induction ts with
    | nil => exact fun u => rfl
    | cons t ts ih =>
      intro u
      have habsorb : (absorb u t).members = insertMembers u.members t.contribution := by
        cases t <;> rfl
      rw [List.foldl_cons, ih, habsorb, List.flatMap_cons, insertMembers_append]
  exact hfold { members := [], weak }

theorem storable_of_mem_contributions (hts : ∀ t ∈ ts, t.WellFormed) :
    ∀ m ∈ ts.flatMap Ty.contribution, m.Storable := by
  intro m hm
  obtain ⟨t, ht, hmt⟩ := List.mem_flatMap.mp hm
  exact Ty.storable_of_mem_contribution (hts t ht) hmt

theorem mem_flatten (hts : ∀ t ∈ ts, t.WellFormed) {m : Ty} :
    m ∈ (flatten ts weak).members ↔ ∃ t ∈ ts, m ∈ t.contribution := by
  rw [members_flatten, mem_insertMembers (storable_of_mem_contributions hts), List.mem_flatMap]
  simp

/-- Nothing is stored just if there is nothing but the weak null type in the list. -/
theorem members_flatten_eq_nil_iff (hts : ∀ t ∈ ts, t.WellFormed) :
    (flatten ts weak).members = [] ↔ ∀ t ∈ ts, t = .weakNone := by
  simp only [List.eq_nil_iff_forall_not_mem, mem_flatten hts, not_exists, not_and]
  constructor
  · intro h t ht
    rw [← Ty.contribution_eq_nil_iff (hts t ht), List.eq_nil_iff_forall_not_mem]
    exact fun m => h m t ht
  · intro h m t ht
    rw [h t ht]
    exact List.not_mem_nil

/-- A list is flattened into a weak union if the flag says so, if the weak null type is in it, or if
one of its unions is weak, as dynamic types always are. -/
theorem weak_flatten_iff (hts : ∀ t ∈ ts, t.WellFormed) :
    (flatten ts weak).weak = true ↔ weak = true ∨ .weakNone ∈ ts ∨
      (∃ v : Union, .union v ∈ ts ∧ v.weak = true) ∨ ∃ v : Union, .dynamic v ∈ ts := by
  rw [weak_flatten, Bool.or_eq_true, List.any_eq_true]
  refine or_congr_right ⟨?_, ?_⟩
  · rintro ⟨t, ht, hweak⟩
    rcases (Ty.weak_contents_iff (hts t ht)).mp hweak with rfl | ⟨v, rfl, hv⟩ | ⟨v, rfl⟩
    · exact Or.inl ht
    · exact Or.inr (Or.inl ⟨v, ht, hv⟩)
    · exact Or.inr (Or.inr ⟨v, ht⟩)
  · rintro (ht | ⟨v, ht, hv⟩ | ⟨v, ht⟩)
    · exact ⟨_, ht, rfl⟩
    · exact ⟨_, ht, hv⟩
    · exact ⟨_, ht, (hts _ ht).2⟩

/-- **Grouping does not matter.** A part of the list may be flattened first, and the union of it put
in its place. -/
theorem flatten_regroup {before part after : List Ty} (hpart : ∀ t ∈ part, t.WellFormed)
    (weak : Bool) :
    flatten (before ++ .union (flatten part false) :: after) weak =
      flatten (before ++ part ++ after) weak := by
  have hmembers : (flatten (before ++ .union (flatten part false) :: after) weak).members =
      (flatten (before ++ part ++ after) weak).members := by
    have hinner : (Ty.union (flatten part false)).contribution =
        insertMembers [] (part.flatMap Ty.contribution) := members_flatten part false
    rw [members_flatten, members_flatten]
    simp only [List.flatMap_append, List.flatMap_cons, insertMembers_append, hinner]
    rw [insertMembers_insertMembers (by simp) (storable_of_mem_contributions hpart)]
    rfl
  have hweak : (flatten (before ++ .union (flatten part false) :: after) weak).weak =
      (flatten (before ++ part ++ after) weak).weak := by
    have hinner : (Ty.union (flatten part false)).contents.weak = part.any (·.contents.weak) := by
      rw [← Bool.false_or (part.any _)]
      exact weak_flatten part false
    rw [weak_flatten, weak_flatten]
    simp only [List.any_append, List.any_cons, hinner, Bool.or_assoc]
  exact congrArg₂ UnionOf.mk hmembers hweak

/-! ## Building a union from a list -/

/-- What is to be remarked on a union that a caller builds: that it stores the null value and is
weak as well, and after that its size, if it is above the limit. -/
def remarks (u : Union) (limit : Nat) : List Warning :=
  (if u.weak && u.contains .none then [{ reason := .redundantNull }] else []) ++
    if limit < u.size then [tooLarge u.size] else []

theorem after_ofList (ts : List Ty) (weak : Bool) (k : Collector) :
    WarnM.after (ofList ts weak).run k =
      if (flatten ts weak).members.isEmpty then k
      else k.addAll ((flatten ts weak).remarks k.limit) := by
  unfold ofList
  cases hempty : (flatten ts weak).members.isEmpty with
  | true => simp only [hempty, if_true]; rfl
  | false =>
    simp only [hempty, Bool.false_eq_true, if_false]
    unfold remarks
    rw [Collector.addAll_append]
    cases hnull : (flatten ts weak).weak && (flatten ts weak).contains .none with
    | true =>
      simp only [if_true]
      show (k.addAll [{ reason := .redundantNull }]).checkSize _ = _
      rw [Collector.checkSize_eq_addAll, Collector.limit_addAll]
      rfl
    | false =>
      simp only [Bool.false_eq_true, if_false, Collector.addAll_nil]
      exact Collector.checkSize_eq_addAll _ _

/-- **What building a union from a list does.** It fails, without a warning, if there is nothing but
the weak null type in the list. Otherwise it stores what the types contribute, one behind the other
and each thing where it occurs first; it is weak if the flag says so or one of the types is weak;
and it warns of what there is to remark on the result. A part of the list may be made into a union
first, and a union is built again from its own members and flag. -/
theorem ofList_flattens (hts : ∀ t ∈ ts, t.WellFormed) (weak : Bool) (k : Collector) :
    let built := WarnM.value (ofList ts weak).run k
    let left := WarnM.after (ofList ts weak).run k
    ((∀ t ∈ ts, t = .weakNone) → built = .error .emptyUnion ∧ left = k) ∧
    ((∃ t ∈ ts, t ≠ .weakNone) → ∃ u, built = .ok u ∧
      u.members = (ts.flatMap Ty.contribution).eraseDups ∧
      (u.weak = true ↔ weak = true ∨ .weakNone ∈ ts ∨
        (∃ v : Union, .union v ∈ ts ∧ v.weak = true) ∨ ∃ v : Union, .dynamic v ∈ ts) ∧
      left = k.addAll (u.remarks k.limit)) ∧
    (∀ before part after v k', ts = before ++ part ++ after →
      WarnM.value (ofList part false).run k' = .ok v →
      WarnM.value (ofList (before ++ .union v :: after) weak).run k = built) ∧
    ∀ u : Union, u.WellFormed → WarnM.value (ofList u.members u.weak).run k = .ok u := by
  intro built left
  have hempty : (flatten ts weak).members.isEmpty = true ↔ ∀ t ∈ ts, t = .weakNone := by
    rw [List.isEmpty_iff, members_flatten_eq_nil_iff hts]
  refine ⟨fun hall => ?fails, fun hsome => ?stores, ?regroups, fun u hu => ?rebuilds⟩
  case fails =>
    have hnil := hempty.mpr hall
    exact ⟨(value_ofList ts weak k).trans (if_pos hnil),
      (after_ofList ts weak k).trans (if_pos hnil)⟩
  case stores =>
    have hne : ¬ (flatten ts weak).members.isEmpty = true := by
      rw [hempty]
      push Not
      exact hsome
    refine ⟨flatten ts weak, (value_ofList ts weak k).trans (if_neg hne), ?_, weak_flatten_iff hts,
      (after_ofList ts weak k).trans (if_neg hne)⟩
    rw [members_flatten, insertMembers_nil_eq_eraseDups (storable_of_mem_contributions hts)]
  case regroups =>
    rintro before part after v k' rfl hpart
    obtain ⟨rfl, -⟩ := value_ofList_eq_ok_iff.mp hpart
    have hwf : ∀ t ∈ part, t.WellFormed := fun t ht => hts t (by simp [ht])
    show _ = WarnM.value (ofList _ weak).run k
    rw [value_ofList, value_ofList, flatten_regroup hwf]
  case rebuilds =>
    exact value_ofList_eq_ok_iff.mpr ⟨flatten_of_fit hu.fit u.weak, hu.members_ne_nil⟩

/-- A class, a weak union that has it too, and the weak null type. The last two may be made into a
union before; and what comes of it stores the null value and is weak. -/
theorem ofList_flattens_of_weak :
    let int : Ty := .cls Class.Builtin.int
    let str : Ty := .cls Class.Builtin.str
    let v : Union := ⟨[str, .none, int], true⟩
    let k : Collector := { enabled := true, limit := 2 }
    WarnM.value (ofList [int, .union v, .weakNone] false).run k =
        .ok ⟨[int, str, .none], true⟩ ∧
      WarnM.after (ofList [int, .union v, .weakNone] false).run k =
        { k with kept := [{ reason := .redundantNull }, tooLarge 3] } ∧
      WarnM.value (ofList [int, .union v] false).run k = .ok ⟨[int, str, .none], true⟩ := by
  intro int str v k
  obtain ⟨-, hstores, hregroups, -⟩ :=
    @ofList_flattens [int, .union v, .weakNone] (by decide) false k
  obtain ⟨⟨members, weak⟩, hbuilt, hmembers, hweak, hleft⟩ := hstores ⟨int, by simp, by simp⟩
  obtain rfl : members = [int, str, .none] := hmembers.trans rfl
  obtain rfl : weak = true := hweak.mpr (Or.inr (Or.inl (by simp)))
  have hgrouped := hregroups [int] [.union v, .weakNone] [] v k rfl rfl
  exact ⟨hbuilt, hleft, hgrouped.trans hbuilt⟩

/-! ## Building and merging -/

/-- What the types of a list store is what they contribute, and the null value besides if the weak
null type is among them. -/
theorem exists_mem_contents_iff (hts : ∀ t ∈ ts, t.WellFormed) {m : Ty} :
    (∃ t ∈ ts, m ∈ t.contents.members) ↔
      m ∈ (flatten ts weak).members ∨ .weakNone ∈ ts ∧ m = .none := by
  rw [mem_flatten hts]
  constructor
  · rintro ⟨t, ht, hm⟩
    rcases Ty.mem_contents_iff.mp hm with hm | ⟨rfl, rfl⟩
    · exact Or.inl ⟨t, ht, hm⟩
    · exact Or.inr ⟨ht, rfl⟩
  · rintro (⟨t, ht, hm⟩ | ⟨ht, rfl⟩)
    · exact ⟨t, ht, Ty.mem_contents_iff.mpr (Or.inl hm)⟩
    · exact ⟨.weakNone, ht, List.mem_cons_self⟩

/-- **Building a union from a list agrees with merging the list.** If the union is built, then there
is something that comes of the merge as well. The union is weak if the flag says so or the merge is
weak; and the merge stores what the union stores, and the null value besides if the weak null type
is in the list. -/
theorem ofList_agrees_mergeAll (hts : ∀ t ∈ ts, t.WellFormed) {u : Union} {k : Collector}
    (hu : WarnM.value (ofList ts weak).run k = .ok u) (k' : Collector) :
    ∃ r, (mergeAll (ts.map some)).value k' = some r ∧
      (u.weak = true ↔ weak = true ∨ r.contents.weak = true) ∧
      (∀ m, m ∈ r.contents.members ↔ m ∈ u.members ∨ .weakNone ∈ ts ∧ m = .none) ∧
      (.weakNone ∉ ts → ∀ m, m ∈ r.contents.members ↔ m ∈ u.members) := by
  obtain ⟨rfl, hne⟩ := value_ofList_eq_ok_iff.mp hu
  have hoperands : ∀ o ∈ ts.map some, ∀ t ∈ o, t.WellFormed := by
    simpa using hts
  cases hr : (mergeAll (ts.map some)).value k' with
  | none =>
    -- a merge of types is absent only if there is none, and then there is nothing to build from
    have hnil : ts = [] := by
      have habsent := (mergeAll_eq_none_iff hoperands k').mp hr
      cases ts with
      | nil => rfl
      | cons t ts => cases habsent (some t) (by simp)
    exact absurd ((members_flatten_eq_nil_iff hts).mpr (by simp [hnil])) hne
  | some r =>
    obtain ⟨hmembers, hweak⟩ := contents_mergeAll hoperands hr
    have hstored : ∀ m, m ∈ r.contents.members ↔
        m ∈ (flatten ts weak).members ∨ .weakNone ∈ ts ∧ m = .none := by
      intro m
      rw [hmembers, ← exists_mem_contents_iff hts]
      simp
    refine ⟨r, rfl, ?_, hstored, fun hnot m => ?_⟩
    · rw [weak_flatten, Bool.or_eq_true, List.any_eq_true, hweak]
      simp
    · rw [hstored m]
      simp [hnot]

/-- A class, the weak null type and a dynamic type. The union that is built does not store the null
value, and the merge does; both are weak. -/
theorem ofList_agrees_mergeAll_of_weakNone :
    let int : Ty := .cls Class.Builtin.int
    let ts : List Ty := [int, .weakNone, .dynamic ⟨[.cls Class.Builtin.str, int], true⟩]
    let u : Union := ⟨[int, .cls Class.Builtin.str], true⟩
    WarnM.value (ofList ts false).run {} = .ok u ∧
      ∃ r, (mergeAll (ts.map some)).value {} = some r ∧ r.contents.weak = true ∧
        .none ∈ r.contents.members ∧ .cls Class.Builtin.str ∈ r.contents.members := by
  intro int ts u
  have hbuilt : WarnM.value (ofList ts false).run {} = .ok u := rfl
  obtain ⟨r, hr, hweak, hmembers, -⟩ :=
    @ofList_agrees_mergeAll ts false (by decide) u {} hbuilt {}
  refine ⟨hbuilt, r, hr, (hweak.mp rfl).resolve_left Bool.false_ne_true, ?_, ?_⟩
  · exact (hmembers _).mpr (Or.inr ⟨by simp [ts], rfl⟩)
  · exact (hmembers _).mpr (Or.inl (by simp [u]))

end UnionOf

end UnionTypes
