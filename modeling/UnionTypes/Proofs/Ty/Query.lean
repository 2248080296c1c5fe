import UnionTypes.Proofs.Ty.Member
import UnionTypes.Proofs.Ty.Reference
import UnionTypes.Proofs.Ty.Validity

/-!
# A merge answers for its operands

A query asks the stored members one by one, and neither their order nor the weakness of a union
changes what they say together. So a type that stores just what the types of a list store answers
as they do together (**`Ty.answersFor_of_members`**). A join stores what its operands store, and so
does a merge of many; weakening leaves the members as they are, and there the answers are the same
to the letter (**`Ty.queries_of_merge`**).
-/

namespace UnionTypes

namespace Ty

/-! ## Answers by what is stored -/

/-- The type answers every query as the types of the list do together. It has no answer for a name
only if none of them has one, and its answers otherwise are those that one of them gives; it offers
what one of them offers; and it passes the check for validity just if all of them do. -/
structure AnswersFor (t : Ty) (ts : List Ty) : Prop where
  resolve_eq_none_iff : ∀ name access,
    t.resolve name access = Option.none ↔ ∀ s ∈ ts, s.resolve name access = Option.none
  mem_resolve_iff : ∀ name access answers, t.resolve name access = some answers →
    ∀ r, r ∈ answers ↔ ∃ s ∈ ts, ∃ own, s.resolve name access = some own ∧ r ∈ own
  mem_complete_iff : ∀ stem m, m ∈ t.complete stem ↔ ∃ s ∈ ts, m ∈ s.complete stem
  validate_iff : ∀ message k k', WarnM.value (t.validate message).run k = .ok () ↔
    ∀ s ∈ ts, WarnM.value (s.validate message).run k' = .ok ()

theorem mem_getD_resolve_iff {t : Ty} {name : String} {access : Access} {r : Resolution} :
    r ∈ (t.resolve name access).getD [] ↔ ∃ own, t.resolve name access = some own ∧ r ∈ own := by
  cases t.resolve name access with
  | none => simp
  | some own => simp

section

variable {t : Ty} {ts : List Ty}
  (hmembers : ∀ m, m ∈ t.contents.members ↔ ∃ s ∈ ts, m ∈ s.contents.members)

include hmembers

theorem exists_member_iff {p : Ty → Prop} :
    (∃ m ∈ t.contents.members, p m) ↔ ∃ s ∈ ts, ∃ m ∈ s.contents.members, p m := by
  simp only [hmembers]
  constructor
  · rintro ⟨m, ⟨s, hs, hm⟩, hp⟩
    exact ⟨s, hs, m, hm, hp⟩
  · rintro ⟨s, hs, m, hm, hp⟩
    exact ⟨m, ⟨s, hs, hm⟩, hp⟩

theorem forall_member_iff {p : Ty → Prop} :
    (∀ m ∈ t.contents.members, p m) ↔ ∀ s ∈ ts, ∀ m ∈ s.contents.members, p m := by
  have h := (exists_member_iff hmembers (p := (¬ p ·))).not
  push Not at h
  exact h

/-- What the members that a type stores say together is all that the type says. -/
theorem answersFor_of_members (ht : t.WellFormed) (hts : ∀ s ∈ ts, s.WellFormed) :
    t.AnswersFor ts where
  resolve_eq_none_iff name access := by
    have hnone : ∀ s : Ty, s.resolve name access = Option.none ↔
        ∀ m ∈ s.contents.members, m.resolve name access = Option.none := by
      intro s
      rw [resolve_eq_resolveAll, resolveAll_eq_none_iff]
    rw [hnone, forall_member_iff hmembers]
    exact forall₂_congr fun s _ => (hnone s).symm
  mem_resolve_iff name access answers hanswers r := by
    have hmem : ∀ s : Ty, (∃ own, s.resolve name access = some own ∧ r ∈ own) ↔
        ∃ m ∈ s.contents.members, r ∈ (m.resolve name access).getD [] := by
      intro s
      rw [← mem_getD_resolve_iff, resolve_eq_resolveAll, getD_resolveAll, List.mem_flatMap]
    have hown : r ∈ answers ↔ ∃ own, t.resolve name access = some own ∧ r ∈ own := by
      simp [hanswers]
    rw [hown, hmem, exists_member_iff hmembers]
    exact exists_congr fun s => and_congr_right fun _ => (hmem s).symm
  mem_complete_iff stem m := by
    rw [mem_complete_iff_exists, exists_member_iff hmembers]
    exact exists_congr fun s => and_congr_right fun _ => (mem_complete_iff_exists stem s m).symm
  validate_iff message k k' := by
    have hvalid : ∀ s : Ty, s.WellFormed → ∀ k,
        (WarnM.value (s.validate message).run k = .ok () ↔
          ∀ m ∈ s.contents.members, ∀ c ∈ m.lineage, c.valid = true) := by
      intro s hs k
      rw [value_validate_eq_ok_iff hs, reached, List.forall_mem_flatMap]
    rw [hvalid t ht, forall_member_iff hmembers]
    exact forall₂_congr fun s hs => (hvalid s (hts s hs) k').symm

end

/-! ## Weakening -/

theorem resolve_weaken (t : Ty) (name : String) (access : Access) :
    t.weaken.resolve name access = t.resolve name access := by
  cases t with
  | cls c => exact (resolve_eq_resolveAll name access (.cls c)).symm
  | none => rfl
  | weakNone => rfl
  | union u => rfl
  | dynamic u => rfl

/-- A class offers every name once, so it offers the same as a union of it alone. -/
theorem complete_weaken (t : Ty) (stem : String) : t.weaken.complete stem = t.complete stem := by
  cases t with
  | cls c =>
    have hnodup : ((Ty.cls c).complete stem).Nodup :=
      (nodup_complete_of_toUnion?_eq_none rfl stem).of_map
    have hdistinct := hnodup.imp fun hne => beq_eq_false_iff_ne.mpr (Ne.symm hne)
    show (completeAll stem [.cls c]).eraseDups = _
    rw [completeAll_eq_flatMap, List.flatMap_singleton, eraseDups_of_pairwise hdistinct]
  | none => rfl
  | weakNone => rfl
  | union u => rfl
  | dynamic u => rfl

theorem validate_weaken (t : Ty) (message : String) :
    t.weaken.validate message = t.validate message := by
  cases t with
  | cls c =>
    have hunion : (Ty.cls c).weaken.validate message = validateAll message [.cls c] := by
      rw [weaken, validate]
      rfl
    rw [hunion, validateAll, validateAll]
    exact bind_pure_unit
  | none => rfl
  | weakNone => rfl
  | union u => rfl
  | dynamic u => rfl

/-! ## Merges -/

/-- **Queries distribute over merging.** A join answers for its two operands, and a merge of types
that are all present answers for them all; and weakening changes no answer of any type. -/
theorem queries_of_merge {a b : Ty} {ts : List Ty} (ha : a.WellFormed) (hb : b.WellFormed)
    (hts : ∀ t ∈ ts, t.WellFormed) (hne : ts ≠ []) (k : Collector) :
    ((a.join b).value k).AnswersFor [a, b] ∧
    (∃ r, (mergeAll (ts.map some)).value k = some r ∧ r.AnswersFor ts) ∧
    ∀ t : Ty,
      (∀ name access, t.weaken.resolve name access = t.resolve name access) ∧
      (∀ stem, t.weaken.complete stem = t.complete stem) ∧
      ∀ message, t.weaken.validate message = t.validate message := by
  refine ⟨?join, ?mergeAll, fun t => ⟨resolve_weaken t, complete_weaken t, validate_weaken t⟩⟩
  case join =>
    have hjoin : IsJoin a b ((a.join b).value k) := isJoin_join ha hb k
    refine answersFor_of_members (fun m => ?_) hjoin.wellFormed (by simp [ha, hb])
    rw [hjoin.contents, UnionOf.mem_merged ha.contents hb.contents]
    simp
  case mergeAll =>
    have hwf : ∀ o ∈ ts.map some, ∀ t ∈ o, t.WellFormed := by
      simpa using hts
    cases hr : (mergeAll (ts.map some)).value k with
    | none =>
      obtain ⟨t, ht⟩ := List.exists_mem_of_ne_nil ts hne
      have habsent := (mergeAll_eq_none_iff hwf k).mp hr (some t) (List.mem_map_of_mem ht)
      cases habsent
    | some r =>
      refine ⟨r, rfl, answersFor_of_members (fun m => ?_) (wellFormed_mergeAll hwf k r hr) hts⟩
      rw [(contents_mergeAll hwf hr).1 m]
      simp

/-- A class that answers for any name, joined with a dynamic null and merged with the weak null
type: the null value has an answer to every name, so there is one, and it offers what the null value
does. -/
theorem queries_of_merge_of_null :
    let proxy : Ty := .cls { name := "Proxy", dynamicAttributes := true }
    let null : Ty := .dynamic ⟨[.none], true⟩
    proxy.resolve "rank" .read = Option.none ∧
    ((proxy.join null).value {}).resolve "rank" .read ≠ Option.none ∧
    ⟨"builtins.NoneType", "__bool__", .method⟩ ∈ ((proxy.join null).value {}).complete "__b" ∧
    ∃ r, (mergeAll [some proxy, some .weakNone]).value {} = some r ∧
      r.resolve "rank" .read ≠ Option.none := by
  intro proxy null
  obtain ⟨hjoin, ⟨r, hr, hmerged⟩, -⟩ := @queries_of_merge proxy null [proxy, .weakNone]
    (by decide) (by decide) (by decide) (by decide) {}
  refine ⟨by decide, ?_, ?_, r, hr, ?_⟩
  · rw [ne_eq, hjoin.resolve_eq_none_iff]
    intro h
    exact absurd (h null (by simp)) (by decide)
  · rw [hjoin.mem_complete_iff]
    exact ⟨null, by simp, by decide⟩
  · rw [ne_eq, hmerged.resolve_eq_none_iff]
    intro h
    exact absurd (h .weakNone (by simp)) (by decide)

end Ty

end UnionTypes
