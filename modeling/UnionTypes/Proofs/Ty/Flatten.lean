import Mathlib.Data.List.Nodup
import UnionTypes.Proofs.Ty.Equality
import UnionTypes.Proofs.Warning.Steady
import UnionTypes.Ty.Flatten

/-!
# Flattening keeps unions well formed

A list of members is `Fit` for storing when it holds classes and the null value only, each once; a
union is well formed when its members are fit and there is at least one. Storing a type that is
storable keeps a list fit, so absorbing a well-formed type does, and so does flattening a whole
list of them: the fold starts with no member at all.

`insertMembers_eq_append_eraseDups` says what storing several types comes to: those that were not
there are added behind the others, each where it occurs first.
-/

namespace UnionTypes

/-- A list in which nothing equals what comes before it has nothing to be freed of. -/
theorem eraseDups_of_pairwise {α : Type} [BEq α] {l : List α}
    (h : l.Pairwise fun a b => (b == a) = false) : l.eraseDups = l := by
  induction l with
  | nil => rfl
  | cons a l ih =>
    obtain ⟨hnew, hl⟩ := List.pairwise_cons.mp h
    have hkeep : l.filter (fun b => !b == a) = l := by
      refine List.filter_eq_self.mpr fun b hb => ?_
      rw [hnew b hb, Bool.not_false]
    rw [List.eraseDups_cons, hkeep, ih hl]

namespace UnionOf

/-! ### Lists that are fit for storing -/

/-- The list can be stored in a union: it holds classes and the null value only, each once. -/
structure Fit (ms : List Ty) : Prop where
  nodup : ms.Nodup
  storable : ∀ t ∈ ms, t.Storable

theorem Fit.nil : Fit [] := ⟨List.nodup_nil, by simp⟩

theorem Fit.singleton {t : Ty} (ht : t.Storable) : Fit [t] :=
  ⟨List.nodup_singleton t, by simpa using ht⟩

theorem Fit.filter {ms : List Ty} (h : Fit ms) (p : Ty → Bool) : Fit (ms.filter p) :=
  ⟨h.nodup.filter p, fun t ht => h.storable t (List.mem_of_mem_filter ht)⟩

theorem WellFormed.fit {u : Union} (hu : u.WellFormed) : Fit u.members :=
  ⟨hu.nodup, hu.storable⟩

/-- What comes before something else in a fit list is fit by itself. -/
theorem Fit.of_append {ms ns : List Ty} (h : Fit (ms ++ ns)) : Fit ms :=
  ⟨(List.nodup_append.mp h.nodup).1, fun t ht => h.storable t (List.mem_append_left ns ht)⟩

theorem Fit.eraseDups_eq {ms : List Ty} (h : Fit ms) : ms.eraseDups = ms := by
  refine eraseDups_of_pairwise (h.nodup.imp_of_mem ?_)
  intro s t hs _ hne
  have hbeq := Ty.beq_iff_eq_of_right (s := t) (h.storable s hs).toUnion?_eq_none
  exact Bool.eq_false_iff.mpr fun hts => hne (hbeq.mp hts).symm

/-- A union of fit members is well formed as soon as it stores anything. -/
theorem Fit.wellFormed {u : Union} (h : Fit u.members) (hne : u.members ≠ []) : u.WellFormed where
  members_ne_nil := hne
  distinct := by
    refine h.nodup.imp_of_mem ?_
    intro s t hs _ hne
    have hbeq := Ty.beq_iff_eq_of_left (t := t) (h.storable s hs).toUnion?_eq_none
    exact Bool.eq_false_iff.mpr fun hst => hne (hbeq.mp hst)
  storable := h.storable

/-- One member alone makes a union. -/
theorem wellFormed_singleton {t : Ty} (ht : t.Storable) (weak : Bool) :
    ({ members := [t], weak } : Union).WellFormed :=
  (Fit.singleton ht).wellFormed (List.cons_ne_nil t [])

/-- The weak flag has no part in being well formed. -/
theorem WellFormed.withWeak {u : Union} (hu : u.WellFormed) (weak : Bool) :
    ({ u with weak } : Union).WellFormed :=
  ⟨hu.members_ne_nil, hu.distinct, hu.storable⟩

/-! ### Storing types -/

theorem insertMember_of_mem {ms : List Ty} {t : Ty} (ht : t.Storable) (hmem : t ∈ ms) :
    insertMember ms t = ms := by
  have hany : ms.any (· == t) = true :=
    List.any_eq_true.mpr ⟨t, hmem, (Ty.beq_iff_eq_of_right ht.toUnion?_eq_none).mpr rfl⟩
  simp [insertMember, hany]

theorem insertMember_of_not_mem {ms : List Ty} {t : Ty} (ht : t.Storable) (hmem : t ∉ ms) :
    insertMember ms t = ms ++ [t] := by
  have hany : ¬ ms.any (· == t) = true := by
    intro h
    obtain ⟨m, hm, hmt⟩ := List.any_eq_true.mp h
    rw [(Ty.beq_iff_eq_of_right ht.toUnion?_eq_none).mp hmt] at hm
    exact hmem hm
  simp [insertMember, hany]

theorem mem_insertMember {ms : List Ty} {s t : Ty} (ht : t.Storable) :
    s ∈ insertMember ms t ↔ s ∈ ms ∨ s = t := by
  by_cases hmem : t ∈ ms
  · rw [insertMember_of_mem ht hmem]
    constructor
    · exact Or.inl
    · rintro (h | rfl)
      · exact h
      · exact hmem
  · rw [insertMember_of_not_mem ht hmem, List.mem_append, List.mem_singleton]

theorem Fit.insertMember {ms : List Ty} (h : Fit ms) {t : Ty} (ht : t.Storable) :
    Fit (insertMember ms t) := by
  by_cases hmem : t ∈ ms
  · rwa [insertMember_of_mem ht hmem]
  · refine ⟨?_, ?_⟩
    · rw [insertMember_of_not_mem ht hmem]
      have hne : ∀ s ∈ ms, s ≠ t := fun s hs heq => hmem (heq ▸ hs)
      exact List.nodup_append.mpr ⟨h.nodup, List.nodup_singleton t, by simpa using hne⟩
    · intro s hs
      rcases (mem_insertMember ht).mp hs with hs | rfl
      · exact h.storable s hs
      · exact ht

/-- Storing storable types keeps a list fit. Induction on the types that come. -/
theorem Fit.insertMembers {ms ts : List Ty} (h : Fit ms) (hts : ∀ t ∈ ts, t.Storable) :
    Fit (insertMembers ms ts) := by
  unfold UnionOf.insertMembers
  induction ts generalizing ms with
  | nil => exact h
  | cons t ts ih =>
    have ht : t.Storable := hts t List.mem_cons_self
    exact ih (h.insertMember ht) fun s hs => hts s (List.mem_cons_of_mem t hs)

/-- Storing types adds those that are new, each where it occurs first. Induction on the types that
come, for any list they are added to. -/
theorem insertMembers_eq_append_eraseDups {ms ts : List Ty} (hts : ∀ t ∈ ts, t.Storable) :
    insertMembers ms ts = ms ++ (ts.filter fun t => !ms.any (· == t)).eraseDups := by
  unfold insertMembers
  induction ts generalizing ms with
  | nil => simp
  | cons t ts ih =>
    obtain ⟨ht, hts⟩ := List.forall_mem_cons.mp hts
    rw [List.foldl_cons, ih hts]
    cases hany : ms.any (· == t) with
    | true => simp [insertMember, hany]
    | false =>
      -- what equals `t` is new no longer, whichever side it is compared on
      have hrest : ts.filter (fun s => !(ms ++ [t]).any (· == s)) =
          (ts.filter (fun s => !ms.any (· == s))).filter (fun s => !s == t) := by
        rw [List.filter_filter]
        refine List.filter_congr fun s _ => ?_
        have hsymm : (t == s) = (s == t) := by
          rw [Bool.eq_iff_iff, Ty.beq_iff_eq_of_left ht.toUnion?_eq_none,
            Ty.beq_iff_eq_of_right ht.toUnion?_eq_none, eq_comm]
        simp [hsymm, Bool.and_comm]
      simp only [insertMember, hany, Bool.false_eq_true, if_false, List.filter_cons,
        Bool.not_false, if_true]
      rw [hrest, List.eraseDups_cons, List.append_assoc, List.singleton_append]

/-- Storing the members of a fit list adds those that are new, in their order. -/
theorem insertMembers_eq {ms ts : List Ty} (hts : Fit ts) :
    insertMembers ms ts = ms ++ ts.filter fun t => !ms.any (· == t) := by
  rw [insertMembers_eq_append_eraseDups hts.storable, (hts.filter _).eraseDups_eq]

/-! ### Flattening -/

/-- Absorbing a well-formed type keeps the members fit, whichever type it is. -/
theorem Fit.absorb {u : Union} (hu : Fit u.members) {t : Ty} (ht : t.WellFormed) :
    Fit (absorb u t).members := by
  cases t with
  | cls c => exact hu.insertMember (t := .cls c) trivial
  | none => exact hu.insertMember (t := .none) trivial
  | weakNone => exact hu
  | union v => exact hu.insertMembers (WellFormed.storable (u := v) ht)
  | dynamic v => exact hu.insertMembers (WellFormed.storable (u := v) ht.1)

theorem absorb_of_storable {t : Ty} (ht : t.Storable) (u : Union) :
    UnionOf.absorb u t = { u with members := UnionOf.insertMember u.members t } := by
  cases t with
  | cls c => rfl
  | none => rfl
  | weakNone => exact ht.elim
  | union v => exact ht.elim
  | dynamic v => exact ht.elim

/-- A list that is fit for storing is stored as it is. -/
theorem flatten_of_fit {ms : List Ty} (h : Fit ms) (weak : Bool) :
    flatten ms weak = { members := ms, weak } := by
  have hfold : ∀ ts : List Ty, (∀ t ∈ ts, t.Storable) → ∀ u : Union,
      ts.foldl UnionOf.absorb u = { u with members := UnionOf.insertMembers u.members ts } := by
    intro ts
    induction ts with
    | nil => exact fun _ _ => rfl
    | cons t ts ih =>
      intro hts u
      rw [List.foldl_cons, absorb_of_storable (hts t List.mem_cons_self),
        ih fun s hs => hts s (List.mem_cons_of_mem t hs)]
      rfl
  rw [flatten, hfold ms h.storable, insertMembers_eq h]
  simp

/-- The members of a flattened list are fit. Induction on the list, for any union it is absorbed
into. -/
theorem fit_flatten {ts : List Ty} (hts : ∀ t ∈ ts, t.WellFormed) (weak : Bool) :
    Fit (flatten ts weak).members := by
  have hfold : ∀ u : Union, Fit u.members → Fit (ts.foldl UnionOf.absorb u).members := by
    induction ts with
    | nil => exact fun _ hu => hu
    | cons t ts ih =>
      intro u hu
      have ht : t.WellFormed := hts t List.mem_cons_self
      exact ih (fun s hs => hts s (List.mem_cons_of_mem t hs)) _ (hu.absorb ht)
  exact hfold _ Fit.nil

theorem wellFormed_flatten {ts : List Ty} (hts : ∀ t ∈ ts, t.WellFormed) {weak : Bool}
    (hne : (flatten ts weak).members ≠ []) : (flatten ts weak).WellFormed :=
  (fit_flatten hts weak).wellFormed hne

@[simp] theorem value_ofMembers (ms : List Ty) (weak : Bool) (k : Collector) :
    (ofMembers ms weak).value k = { members := ms, weak } := rfl

@[simp] theorem after_ofMembers (ms : List Ty) (weak : Bool) (k : Collector) :
    (ofMembers ms weak).after k = k.checkSize ms.length := rfl

theorem steady_ofMembers (ms : List Ty) (weak : Bool) : WarnM.Steady (ofMembers ms weak) :=
  (WarnM.Steady.warnIfLarge ms.length).bind fun _ => .pure _

/-- What building a union from a list returns: the flattened list, unless it is empty. -/
theorem value_ofList (ts : List Ty) (weak : Bool) (k : Collector) :
    WarnM.value (ofList ts weak).run k =
      if (flatten ts weak).members.isEmpty then .error .emptyUnion
      else .ok (flatten ts weak) := by
  unfold ofList
  cases hempty : (flatten ts weak).members.isEmpty with
  | true => simp only [hempty, if_true]; rfl
  | false =>
    simp only [hempty, Bool.false_eq_true, if_false]
    split <;> rfl

/-- What is built from a list, if anything is, is the flattened list. -/
theorem value_ofList_eq_ok_iff {ts : List Ty} {weak : Bool} {u : Union} {k : Collector} :
    WarnM.value (ofList ts weak).run k = .ok u ↔ flatten ts weak = u ∧ u.members ≠ [] := by
  rw [value_ofList]
  constructor
  · intro h
    split at h
    next => cases h
    next hempty =>
      obtain rfl : flatten ts weak = u := by simpa using h
      exact ⟨rfl, by simpa using hempty⟩
  · rintro ⟨rfl, hne⟩
    rw [if_neg (by simpa using hne)]

theorem wellFormed_ofList {ts : List Ty} (hts : ∀ t ∈ ts, t.WellFormed) {weak : Bool} {u : Union}
    {k : Collector} (hu : WarnM.value (ofList ts weak).run k = .ok u) : u.WellFormed := by
  obtain ⟨rfl, hne⟩ := value_ofList_eq_ok_iff.mp hu
  exact wellFormed_flatten hts hne

/-! ### Dynamic types -/

theorem WellFormed.toDynamic {u : Union} (hu : u.WellFormed) : u.toDynamic.WellFormed :=
  ⟨hu.withWeak true, rfl⟩

end UnionOf

theorem Ty.WellFormed.toDynamic {t : Ty} (ht : t.WellFormed) : t.toDynamic.WellFormed := by
  have hone : ∀ s : Ty, s.Storable → (Ty.dynamic { members := [s], weak := true }).WellFormed :=
    fun s hs => ⟨UnionOf.wellFormed_singleton hs true, rfl⟩
  cases t with
  | cls c => exact hone (.cls c) trivial
  | none => exact hone .none trivial
  | weakNone => exact hone .none trivial
  | union u => exact UnionOf.WellFormed.toDynamic (u := u) ht
  | dynamic u => exact ht

end UnionTypes
